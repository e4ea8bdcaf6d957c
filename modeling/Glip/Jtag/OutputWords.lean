import Glip.Jtag.InputWords
import Glip.Jtag.OutputFsm

/-! What the output state machine does with a whole word of a scan. -/
namespace Glip.Jtag
open Foundation
variable {W : Nat}

namespace OutputFsm
variable (s : OutputFsm W) (cs : List (OutputIn W))

def sent : List Bool := ((outputCycles W).emitted s cs).map Prod.fst

def taken : List (BitVec W) := ((outputCycles W).emitted s cs).flatMap Prod.snd

variable {s} {cs}

theorem sent_append (ds : List (OutputIn W)) :
    s.sent (cs ++ ds) = s.sent cs ++ ((outputCycles W).after s cs).sent ds := by
  rw [sent, Transducer.emitted_append, List.map_append]
  rfl

theorem taken_append (ds : List (OutputIn W)) :
    s.taken (cs ++ ds) = s.taken cs ++ ((outputCycles W).after s cs).taken ds := by
  rw [taken, Transducer.emitted_append, List.flatMap_append]
  rfl

theorem length_sent : (s.sent cs).length = cs.length := by
  induction cs generalizing s with
  | nil => rfl
  | cons c cs ih =>
    have hsent : s.sent (c :: cs) = (s.wires c).tdo :: (s.next c).sent cs := rfl
    rw [hsent, List.length_cons, List.length_cons, ih]

structure Sends (s : OutputFsm W) (cs : List (OutputIn W)) (s' : OutputFsm W) (bits : List Bool)
    (words : List (BitVec W)) : Prop where
  after : (outputCycles W).after s cs = s'
  sent : s.sent cs = bits
  taken : s.taken cs = words

theorem Sends.append {s t u : OutputFsm W} {cs ds : List (OutputIn W)} {bs bs' : List Bool} {ws ws' : List (BitVec W)}
    (h : Sends s cs t bs ws) (h' : Sends t ds u bs' ws') : Sends s (cs ++ ds) u (bs ++ bs') (ws ++ ws') := by
  obtain ⟨rfl, rfl, rfl⟩ := h
  obtain ⟨rfl, rfl, rfl⟩ := h'
  exact ⟨Transducer.after_append _ _ _ _, sent_append ds, taken_append ds⟩

/-- The steps for the bits of a word, and the last of them. -/
theorem sends_word (St : Nat → OutputFsm W) (b : Nat → Bool) {n : Nat} (hlen : cs.length = n + 1)
    (h : ∀ k (hk : k < n), (St k).next cs[k] = St (k + 1) ∧ ((St k).wires cs[k]).tdo = b k ∧ (St k).pops cs[k] = [])
    (hlast : ((St n).wires cs[n]).tdo = b n) :
    Sends (St 0) cs ((St n).next cs[n]) ((List.range (n + 1)).map b) ((St n).pops cs[n]) := by
  obtain ⟨ha, he, -⟩ := (outputCycles W).word (P := fun _ => True) St (fun k => [(b k, [])]) hlen (fun k hk => by
    obtain ⟨hn, ht, hp⟩ := h k hk
    exact ⟨hn, by simp [outputCycles, ht, hp]⟩) fun _ _ => trivial
  have hflat (l : List Nat) : (l.map fun k => [(b k, ([] : List (BitVec W)))]).flatten = l.map fun k => (b k, []) := by
    induction l with
    | nil => rfl
    | cons k l ih => rw [List.map_cons, List.flatten_cons, ih, List.map_cons, List.singleton_append]
  rw [hflat] at he
  refine ⟨ha, ?_, ?_⟩
  · rw [sent, he, List.range_succ, List.map_append, List.map_append, List.map_map]
    simp [outputCycles, hlast, Function.comp_def]
  · rw [taken, he, List.flatMap_append, List.flatMap_map]
    simp [outputCycles]

private theorem ofNat_ne_zero {k : Nat} (h0 : k ≠ 0) (hk : k < W) : BitVec.ofNat W k ≠ 0#W := by
  intro h
  have := congrArg BitVec.toNat h
  rw [toNat_count hk] at this
  exact h0 this

section Words
variable {v : BitVec W} (hcs : cs.map OutputIn.tap = shiftWord v)
include hcs

/-- The first word is the number of words to write. -/
theorem header_word (hW : 2 ≤ W) (hv : v ≠ BitVec.allOnes W) (hs : s.outputState = .idle) (hb : s.bitCnt = 0) :
    Sends s cs ⟨.readLength, s.outReg, 0, 0, 0, 0, v, v, 0⟩ (s.sent cs) [] := by
  obtain ⟨n, rfl⟩ : ∃ n, W = n + 1 := ⟨W - 1, by omega⟩
  have hlen := length_word hcs
  have hn : n ≠ 0 := by omega
  have hcnt : (BitVec.ofNat (n + 1) n).toNat = n := toNat_count (by omega)
  have hbit := getElem_word hcs (k := n) (by omega)
  have hall : setBit (loaded 0 v n) n (bitAt v n) = v := loaded_all 0 v
  have htop := withTop_loaded (x := 0) (v := v) rfl
  rw [hall] at htop
  obtain ⟨ha, -, ht⟩ := sends_word
    (fun k => if k = 0 then s else ⟨.writeLength, s.outReg, 0, 0, 0, BitVec.ofNat _ k, loaded 0 v k, 0, 0⟩)
    (fun k => bitAt (cs.getD k ⟨.bit false, false, 0, 0, false⟩).fifoData 0) hlen (fun k hk => by
      have hbit := getElem_word hcs (k := k) (by omega)
      have hget : cs[k]? = some cs[k] := List.getElem?_eq_getElem _
      by_cases h0 : k = 0
      · subst h0
        simp [next, wires, pops, hs, hb, hbit, hget, TapIn.bit, loaded]
      · have hcnt : (BitVec.ofNat (n + 1) k).toNat = k := toNat_count (by omega)
        simp [next, wires, pops, h0, hcnt, hk, hbit, hget, TapIn.bit, loaded, BitVec.ofNat_add]) (by
      have hget : cs[n]? = some cs[n] := List.getElem?_eq_getElem _
      generalize loaded 0 v n = x at hall
      simp [wires, hn, hcnt, hbit, hget, TapIn.bit, hall, htop, hv])
  rw [if_neg hn] at ha ht
  generalize loaded 0 v n = x at hall ha ht
  refine ⟨ha.trans ?_, rfl, ht.trans ?_⟩
  · simp [next, wires, hcnt, hbit, TapIn.bit, hall, htop, hv]
  · simp [pops, wires, hcnt, hbit, TapIn.bit, hall, htop, hv]

/-- The second word is the number of words to read. With its last bit the first word is
taken out of the FIFO, if there is one. -/
theorem readLength_word {n : Nat} (hW : W = n + 1) {o wr : BitVec W} (hs : s = ⟨.readLength, o, 0, 0, 0, 0, wr, wr, 0⟩)
    (hn : n < cs.length) :
    Sends s cs
      ⟨if v ≠ 0 then if cs[n].fifoValid then .sendData else .noData
        else if wr > 0 then .noData else .sendCountWrite,
        cs[n].fifoData, 0, 0, 0, 0, if v < wr then wr else v, wr, v⟩ (s.sent cs)
      (if v ≠ 0 ∧ cs[n].fifoValid then [cs[n].fifoData] else []) := by
  subst hW hs
  have hlen := length_word hcs
  have hcnt : (BitVec.ofNat (n + 1) n).toNat = n := toNat_count (by omega)
  have hbit := getElem_word hcs hn
  have hall : setBit (loaded wr v n) n (bitAt v n) = v := loaded_all wr v
  have htop := withTop_loaded (x := wr) (v := v) rfl
  rw [hall] at htop
  obtain ⟨ha, -, ht⟩ := sends_word
    (fun k => ⟨.readLength, o, 0, 0, 0, BitVec.ofNat _ k, loaded wr v k, wr, 0⟩)
    (fun k => bitAt (cs.getD k ⟨.bit false, false, 0, 0, false⟩).fifoData 0) hlen (fun k hk => by
      have hbit := getElem_word hcs (k := k) (by omega)
      have hget : cs[k]? = some cs[k] := List.getElem?_eq_getElem _
      have hcnt : (BitVec.ofNat (n + 1) k).toNat = k := toNat_count (by omega)
      simp [next, wires, pops, hcnt, hk, hbit, hget, TapIn.bit, loaded, BitVec.ofNat_add]) (by
      have hget : cs[n]? = some cs[n] := List.getElem?_eq_getElem _
      generalize loaded wr v n = x at hall
      simp [wires, hcnt, hbit, hget, TapIn.bit, hall, htop]
      split <;> split <;> rfl)
  generalize loaded wr v n = x at hall ha ht
  refine ⟨ha.trans ?_, rfl, ht.trans ?_⟩
  · simp [next, wires, hcnt, hbit, TapIn.bit, hall, htop]
    by_cases h0 : v = 0#(n + 1)
    · by_cases hwr : 0#(n + 1) < wr <;> simp [h0, hwr]
    · cases cs[n].fifoValid <;> simp [h0]
  · simp [pops, wires, hcnt, hbit, TapIn.bit, hall, htop]
    by_cases h0 : v = 0#(n + 1)
    · by_cases hwr : 0#(n + 1) < wr <;> simp [h0, hwr]
    · cases cs[n].fifoValid <;> simp [h0]

/-- A word of the FIFO is sent. With its last bit the machine turns to the count words, to
zeros, or to the next word of the FIFO. -/
theorem sendData_word {n : Nat} (hW : W = n + 1) (hs : s.outputState = .sendData) (hb : s.bitCnt = 0) (hn : n < cs.length) :
    Sends s cs
      (if s.wordCnt.toNat = minusOne s.inRegCnt then
        { s with outputState := .sendCountWrite, packetCount := s.wordCnt + 1 }
      else if s.wordCnt.toNat = minusOne s.readLengthReg then
        { s with outputState := .noData, packetCount := s.wordCnt + 1 }
      else if cs[n].fifoValid then { s with wordCnt := s.wordCnt + 1, outReg := cs[n].fifoData }
      else { s with wordCnt := s.wordCnt + 1, packetCount := s.wordCnt + 1, outputState := .noData })
      (bitsOf s.outReg)
      (if s.wordCnt.toNat ≠ minusOne s.inRegCnt ∧ s.wordCnt.toNat ≠ minusOne s.readLengthReg ∧ cs[n].fifoValid then
        [cs[n].fifoData] else []) := by
  obtain ⟨st, o, wc, pc, free, bitCnt, cnt, wr, rd⟩ := s
  dsimp only at hs hb
  subst hs hb hW
  have hlen := length_word hcs
  have hcnt : (BitVec.ofNat (n + 1) n).toNat = n := toNat_count (by omega)
  have hbit := getElem_word hcs hn
  obtain ⟨ha, hsent, ht⟩ := sends_word (fun k => ⟨.sendData, o, wc, pc, free, BitVec.ofNat _ k, cnt, wr, rd⟩) (bitAt o) hlen
    (fun k hk => by
      have hbit := getElem_word hcs (k := k) (by omega)
      have hcnt : (BitVec.ofNat (n + 1) k).toNat = k := toNat_count (by omega)
      have hne : k ≠ n := by omega
      simp [next, wires, pops, hcnt, hne, hbit, TapIn.bit, BitVec.ofNat_add]) (by
      simp [wires, hcnt, hbit, TapIn.bit]
      split <;> [rfl; (split <;> [rfl; (split <;> rfl)])])
  refine ⟨ha.trans ?_, hsent, ht.trans ?_⟩
  · simp only [next, wires, hcnt, hbit, TapIn.bit]
    simp
    split <;> [rfl; (split <;> [rfl; (split <;> rfl)])]
  · by_cases hcnts : wc.toNat = minusOne cnt
    · simp [pops, wires, hcnt, hbit, TapIn.bit, hcnts]
    · by_cases hrd : wc.toNat = minusOne rd
      · have hne : minusOne rd ≠ minusOne cnt := hrd ▸ hcnts
        simp [pops, wires, hcnt, hbit, TapIn.bit, hrd, hne]
      · cases hv : cs[n].fifoValid <;> simp [pops, wires, hcnt, hbit, TapIn.bit, hcnts, hrd, hv]

/-- A word of zeros. -/
theorem noData_word (hW : 0 < W) (hs : s.outputState = .noData) (hb : s.bitCnt = 0) :
    Sends s cs
      (if s.wordCnt.toNat = minusOne s.inRegCnt then { s with outputState := .sendCountWrite }
      else { s with wordCnt := s.wordCnt + 1 })
      (bitsOf (0 : BitVec W)) [] := by
  obtain ⟨st, o, wc, pc, free, bitCnt, cnt, wr, rd⟩ := s
  obtain ⟨n, rfl⟩ : ∃ n, W = n + 1 := ⟨W - 1, by omega⟩
  dsimp only at hs hb
  subst hs hb
  have hlen := length_word hcs
  have hcnt : (BitVec.ofNat (n + 1) n).toNat = n := toNat_count (by omega)
  have hbit := getElem_word hcs (k := n) (by omega)
  obtain ⟨ha, hsent, ht⟩ := sends_word (fun k => ⟨.noData, o, wc, pc, free, BitVec.ofNat _ k, cnt, wr, rd⟩)
    (bitAt (0 : BitVec (n + 1))) hlen (fun k hk => by
      have hbit := getElem_word hcs (k := k) (by omega)
      have hcnt : (BitVec.ofNat (n + 1) k).toNat = k := toNat_count (by omega)
      have hne : k ≠ n := by omega
      simp [next, wires, pops, hcnt, hne, hbit, TapIn.bit, bitAt, BitVec.ofNat_add]) (by
      simp [wires, hcnt, hbit, TapIn.bit, bitAt]
      split <;> rfl)
  refine ⟨ha.trans ?_, hsent, ht.trans ?_⟩
  · simp [next, wires, hcnt, hbit, TapIn.bit]
    split <;> rfl
  · simp [pops, wires, hcnt, hbit, TapIn.bit]
    split <;> simp

/-- The number of accepted words, as it is with the first bit. -/
theorem sendCountWrite_word (hW : 2 ≤ W) (hs : s.outputState = .sendCountWrite) (hb : s.bitCnt = 0)
    (herror : ∀ c ∈ cs, c.inError = false) {acc : BitVec W} (hacc : ∀ c ∈ cs, c.inWritten = acc) :
    Sends s cs { s with outputState := .sendCountRead, free := acc } (bitsOf acc) [] := by
  obtain ⟨st, o, wc, pc, free, bitCnt, cnt, wr, rd⟩ := s
  obtain ⟨n, rfl⟩ : ∃ n, W = n + 1 := ⟨W - 1, by omega⟩
  dsimp only at hs hb
  subst hs hb
  have hlen := length_word hcs
  have hn : n ≠ 0 := by omega
  have hcnt : (BitVec.ofNat (n + 1) n).toNat = n := toNat_count (by omega)
  have hbit := getElem_word hcs (k := n) (by omega)
  obtain ⟨ha, hsent, ht⟩ := sends_word
    (fun k => ⟨.sendCountWrite, o, wc, pc, if k = 0 then free else acc, BitVec.ofNat _ k, cnt, wr, rd⟩)
    (bitAt acc) hlen (fun k hk => by
      have hbit := getElem_word hcs (k := k) (by omega)
      have hcnt : (BitVec.ofNat (n + 1) k).toNat = k := toNat_count (by omega)
      have hmem : cs[k] ∈ cs := List.getElem_mem _
      have hne : k ≠ n := by omega
      by_cases hk0 : k = 0
      · subst hk0
        simp [next, wires, pops, hne, hbit, TapIn.bit, herror _ hmem, hacc _ hmem]
      · have h0 := ofNat_ne_zero hk0 (show k < n + 1 by omega)
        simp [next, wires, pops, hcnt, hne, hk0, h0, hbit, TapIn.bit, herror _ hmem, BitVec.ofNat_add]) (by
      have hmem : cs[n] ∈ cs := List.getElem_mem _
      simp [wires, hcnt, hn, ofNat_ne_zero hn (Nat.lt_succ_self n), herror _ hmem])
  have hmem : cs[n] ∈ cs := List.getElem_mem _
  have h0 := ofNat_ne_zero hn (Nat.lt_succ_self n)
  refine ⟨ha.trans ?_, hsent, ht.trans ?_⟩
  · simp [next, wires, hcnt, hn, h0, hbit, TapIn.bit]
  · simp [pops, wires, hcnt]

/-- The number of words that the machine took. -/
theorem sendCountRead_word (hW : 0 < W) (hs : s.outputState = .sendCountRead) (hb : s.bitCnt = 0) :
    Sends s cs { s with outputState := .idle } (bitsOf s.packetCount) [] := by
  obtain ⟨st, o, wc, pc, free, bitCnt, cnt, wr, rd⟩ := s
  obtain ⟨n, rfl⟩ : ∃ n, W = n + 1 := ⟨W - 1, by omega⟩
  dsimp only at hs hb
  subst hs hb
  have hlen := length_word hcs
  have hcnt : (BitVec.ofNat (n + 1) n).toNat = n := toNat_count (by omega)
  have hbit := getElem_word hcs (k := n) (by omega)
  obtain ⟨ha, hsent, ht⟩ := sends_word (fun k => ⟨.sendCountRead, o, wc, pc, free, BitVec.ofNat _ k, cnt, wr, rd⟩)
    (bitAt pc) hlen (fun k hk => by
      have hbit := getElem_word hcs (k := k) (by omega)
      have hcnt : (BitVec.ofNat (n + 1) k).toNat = k := toNat_count (by omega)
      simp [next, wires, pops, hcnt, hk, hbit, TapIn.bit, BitVec.ofNat_add]) (by
      simp [wires, hcnt])
  refine ⟨ha.trans ?_, hsent, ht.trans ?_⟩
  · simp [next, wires, hcnt, hbit, TapIn.bit]
  · simp [pops, wires, hcnt]

end Words
end OutputFsm
end Glip.Jtag
