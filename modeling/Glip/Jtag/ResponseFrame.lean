import Glip.Jtag.OutputRuns
import Glip.Jtag.ScanTarget

/-! The response to a data transfer: which words it has, and when it has them in the places
where the host reads them. -/
namespace Glip.Jtag
open Foundation
variable {W : Nat}

/-- The zeros before the count words do not follow the last wanted word of the FIFO. -/
def InTime (cs : List (OutputIn W)) (wr rd : Nat) : Prop :=
  rd = 0 ∨ wr ≤ rd ∨ ∃ j < rd, validAt cs (j + 1) = false

theorem inTime_append_left (hW : 0 < W) {cs : List (OutputIn W)} (ds : List (OutputIn W)) {wr rd : Nat}
    (hlen : (rd + 1) * W ≤ cs.length) : InTime (cs ++ ds) wr rd ↔ InTime cs wr rd := by
  have hvalid (j : Nat) (hj : j < rd) : validAt (cs ++ ds) (j + 1) = validAt cs (j + 1) := by
    apply validAt_append_left
    have : (j + 1 + 1) * W ≤ (rd + 1) * W := Nat.mul_le_mul_right W (by omega)
    have : 0 < (j + 1 + 1) * W := Nat.mul_pos (Nat.succ_pos _) hW
    omega
  have hexists : (∃ j < rd, validAt (cs ++ ds) (j + 1) = false) ↔ ∃ j < rd, validAt cs (j + 1) = false := by
    apply exists_congr
    intro j
    apply and_congr_right
    intro hj
    rw [hvalid j hj]
  rw [InTime, InTime, hexists]

namespace OutputFsm
variable {s : OutputFsm W} {cs : List (OutputIn W)} {wr rd : Nat}

/-- The cycles of the header. -/
theorem header_cycles (hW : 2 ≤ W) {a b : BitVec W} (hcs : cs.map OutputIn.tap = [a, b].flatMap shiftWord)
    (ds : List (OutputIn W)) :
    cs.length = 2 * W ∧ (∀ j, validAt (cs ++ ds) (j + 1 + 1) = validAt ds j) ∧
      validAt (cs ++ ds) 1 = validAt cs 1 := by
  have hlen : cs.length = 2 * W := by
    have := congrArg List.length hcs
    simp only [List.length_map, List.flatMap_cons, List.flatMap_nil, List.length_append, length_shiftWord,
      List.length_nil] at this
    omega
  refine ⟨hlen, fun j => ?_, validAt_append_left ds (by rw [hlen]; omega)⟩
  rw [List.flatMap_cons, List.flatMap_singleton] at hcs
  obtain ⟨c₁, c₂, rfl, hc₁, hc₂⟩ := List.map_eq_append_iff.mp hcs
  rw [List.append_assoc, validAt_succ (by omega) _ (length_word hc₁), validAt_succ (by omega) _ (length_word hc₂)]

/-- After the header. -/
theorem header_sends (hW : 2 ≤ W) (hwr : wr < 2 ^ W - 1) (hrd : rd < 2 ^ W) (hs : s.outputState = .idle)
    (hb : s.bitCnt = 0) (hcs : cs.map OutputIn.tap = [BitVec.ofNat W wr, BitVec.ofNat W rd].flatMap shiftWord) :
    ∃ s' ps, Sends s cs s' (s.sent cs) ps ∧
      ((0 < rd ∧ validAt cs 1 = true ∧ s'.Sending 0 (max wr rd) rd ∧ ps = [s'.outReg]) ∨
        ((rd = 0 ∨ validAt cs 1 = false) ∧ s'.Padding 0 (max wr rd) 0 ∧ ps = [])) := by
  rw [List.flatMap_cons, List.flatMap_singleton] at hcs
  obtain ⟨c₁, c₂, rfl, hc₁, hc₂⟩ := List.map_eq_append_iff.mp hcs
  have hwr' : (BitVec.ofNat W wr).toNat = wr := Nat.mod_eq_of_lt (by omega)
  have hrd' : (BitVec.ofNat W rd).toNat = rd := Nat.mod_eq_of_lt hrd
  have hones : BitVec.ofNat W wr ≠ BitVec.allOnes W := by
    intro h
    rw [h, BitVec.toNat_allOnes] at hwr'
    omega
  have hlen₂ := length_word hc₂
  have hn : W - 1 < c₂.length := by omega
  have h₁ := header_word hc₁ hW hones hs hb
  have hstart : (⟨.readLength, s.outReg, 0, 0, 0, 0, BitVec.ofNat W wr, BitVec.ofNat W wr, 0⟩ : OutputFsm W) = _ := rfl
  have h₂ := readLength_word hc₂ (n := W - 1) (by omega) hstart hn
  have hsends := h₁.append h₂
  have hvalid : validAt (c₁ ++ c₂) 1 = c₂[W - 1].fifoValid := by
    have := validAt_zero (show W = W - 1 + 1 by omega) [] hn
    rw [validAt_succ (by omega) c₂ (length_word hc₁), ← this, List.append_nil]
  have hzero : BitVec.ofNat W rd = 0 ↔ rd = 0 := by
    rw [← BitVec.toNat_inj, hrd']
    rfl
  have hmax : (if BitVec.ofNat W rd < BitVec.ofNat W wr then BitVec.ofNat W wr else BitVec.ofNat W rd).toNat =
      max wr rd := by
    split <;> rename_i hlt <;> rw [BitVec.lt_def, hwr', hrd'] at hlt <;> omega
  by_cases h0 : rd = 0
  · have hpos : BitVec.ofNat W wr > 0 ↔ 0 < wr := by
      rw [gt_iff_lt, BitVec.lt_def, hwr']
      rfl
    refine ⟨_, _, ⟨hsends.after, rfl, hsends.taken⟩, .inr ⟨.inl h0, ⟨rfl, rfl, fun hlt => ⟨?_, rfl, hmax⟩, fun hle => ?_⟩, ?_⟩⟩
    · rw [if_neg fun h => h (hzero.mpr h0), if_pos (hpos.mpr (by omega))]
    · rw [if_neg fun h => h (hzero.mpr h0), if_neg fun h => by have := hpos.mp h; omega]
    · rw [if_neg fun h => h.1 (hzero.mpr h0)]
      rfl
  · have hne : BitVec.ofNat W rd ≠ 0 := fun h => h0 (hzero.mp h)
    cases hv : c₂[W - 1].fifoValid with
    | true =>
      refine ⟨_, _, ⟨hsends.after, rfl, hsends.taken⟩, .inl ⟨by omega, hvalid.trans hv, ⟨?_, rfl, rfl, hmax, hrd', by omega,
        Nat.le_max_right _ _⟩, ?_⟩⟩
      · rw [if_pos hne, if_pos hv]
      · rw [if_pos ⟨hne, hv⟩]
        rfl
    | false =>
      refine ⟨_, _, ⟨hsends.after, rfl, hsends.taken⟩, .inr ⟨.inr (hvalid.trans hv), ⟨rfl, rfl, fun _ => ⟨?_, rfl, hmax⟩,
        fun hle => by omega⟩, ?_⟩⟩
      · rw [if_pos hne, if_neg (by simp [hv])]
      · rw [if_neg fun h => by simp [hv] at h]
        rfl

/-- Up to the count words. -/
theorem body_sends (hW : 2 ≤ W) (hwr : wr < 2 ^ W - 1) (hrd : rd < 2 ^ W) (hs : s.outputState = .idle)
    (hb : s.bitCnt = 0) {ws : List (BitVec W)} (hws : ws.length = max wr rd)
    (hcs : cs.map OutputIn.tap = (BitVec.ofNat W wr :: BitVec.ofNat W rd :: ws).flatMap shiftWord) :
    ∃ s' head ps, Sends s cs s' (head ++ ps.flatMap bitsOf ++ zeros W (max wr rd - ps.length)) ps ∧
      head.length = 2 * W ∧ ps.length ≤ rd ∧ (InTime cs wr rd → s'.Padding (max wr rd) (max wr rd) ps.length) ∧
      (¬InTime cs wr rd → s'.Padding (max wr rd - 1) (max wr rd) rd ∧ ps.length = rd) := by
  have hsplit : (BitVec.ofNat W wr :: BitVec.ofNat W rd :: ws).flatMap shiftWord =
      [BitVec.ofNat W wr, BitVec.ofNat W rd].flatMap shiftWord ++ ws.flatMap shiftWord := by
    rw [← List.flatMap_append]
    rfl
  rw [hsplit] at hcs
  obtain ⟨c₁, c₂, rfl, hc₁, hc₂⟩ := List.map_eq_append_iff.mp hcs
  obtain ⟨hlen, hvalid, hfirst⟩ := header_cycles hW hc₁ c₂
  obtain ⟨s₁, ps₁, hsends₁, ⟨hpos, hv, h₁, rfl⟩ | ⟨hnone, h₁, rfl⟩⟩ := header_sends hW hwr hrd hs hb hc₁
  · have htime : InTime (c₁ ++ c₂) wr rd ↔ rd = max wr rd ∨ ∃ j < rd - 0 - 1, validAt c₂ j = false := by
      constructor
      · rintro (h0 | hle | ⟨_ | j, hj, hjv⟩)
        · omega
        · exact .inl (by omega)
        · rw [hfirst, hv] at hjv
          cases hjv
        · exact .inr ⟨j, by omega, (hvalid j).symm.trans hjv⟩
      · rintro (hle | ⟨j, hj, hjv⟩)
        · exact .inr (.inl (by omega))
        · exact .inr (.inr ⟨j + 1, by omega, (hvalid j).trans hjv⟩)
    obtain ⟨s₂, ps, hsends₂, hps, hgood, hbad⟩ := h₁.run (by omega) (by omega) hc₂
    rw [Nat.zero_add] at hps hgood hbad
    refine ⟨s₂, s.sent c₁, s₁.outReg :: ps, ?_, by rw [length_sent, hlen], by rw [List.length_cons]; omega, ?_, ?_⟩
    · have := hsends₁.append hsends₂
      rw [List.length_cons, show max wr rd - (ps.length + 1) = max wr rd - 0 - 1 - ps.length by omega]
      simpa using this
    · rw [htime, List.length_cons, Nat.add_comm]
      exact hgood
    · rw [htime, List.length_cons, Nat.add_comm]
      exact hbad
  · obtain ⟨s₂, hsends₂, h₂⟩ := h₁.run (by omega) (by omega) hc₂
    rw [Nat.zero_add, hws] at h₂
    refine ⟨s₂, s.sent c₁, [], ?_, by rw [length_sent, hlen], Nat.zero_le _, fun _ => h₂, fun hnot => absurd ?_ hnot⟩
    · have := hsends₁.append hsends₂
      simpa [hws] using this
    · rcases hnone with h0 | hv
      · exact .inl h0
      · by_cases h0 : rd = 0
        · exact .inl h0
        · exact .inr (.inr ⟨0, by omega, hfirst.trans hv⟩)

/-- The count words: the answer with the number of accepted words comes in its place or one
word late. -/
theorem tail_sends (hW : 2 ≤ W) {t₁ t₂ : BitVec W} (hcs : cs.map OutputIn.tap = [t₁, t₂].flatMap shiftWord)
    {acc : BitVec W} (hacc : ∀ c ∈ cs, c.inError = false ∧ c.inWritten = acc) {n m : Nat} :
    (s.Padding n n m → ∃ s', Sends s cs s' (bitsOf acc ++ bitsOf (BitVec.ofNat W m)) []) ∧
      (0 < n → s.Padding (n - 1) n m → ∃ s', Sends s cs s' (bitsOf (0 : BitVec W) ++ bitsOf acc) []) := by
  rw [List.flatMap_cons, List.flatMap_singleton] at hcs
  obtain ⟨c₁, c₂, rfl, hc₁, hc₂⟩ := List.map_eq_append_iff.mp hcs
  constructor
  · intro h
    have h₁ := sendCountWrite_word hc₁ hW (h.finished (Nat.le_refl n)) h.bitCnt
      (fun c hc => (hacc c (List.mem_append_left _ hc)).1) (fun c hc => (hacc c (List.mem_append_left _ hc)).2)
    have h₂ := sendCountRead_word hc₂ (by omega) (s := { s with outputState := .sendCountRead, free := acc }) rfl h.bitCnt
    have := h₁.append h₂
    rw [h.packetCount] at this
    exact ⟨_, this⟩
  · intro hn h
    have hzero : c₁.map OutputIn.tap = [t₁].flatMap shiftWord := by simpa using hc₁
    obtain ⟨s₁, h₁, hpad⟩ := h.run (by omega) (by simp; omega) hzero
    rw [List.length_singleton, Nat.sub_add_cancel hn] at hpad
    have h₂ := sendCountWrite_word hc₂ hW (hpad.finished (Nat.le_refl n)) hpad.bitCnt
      (fun c hc => (hacc c (List.mem_append_right _ hc)).1) (fun c hc => (hacc c (List.mem_append_right _ hc)).2)
    have := h₁.append h₂
    rw [List.length_singleton, zeros_succ] at this
    exact ⟨_, by simpa [zeros] using this⟩

end OutputFsm

def request (rd : Nat) (payload : List (BitVec W)) : List (BitVec W) := requestBody rd payload ++ [0, 0]

theorem length_requestBody (rd : Nat) (payload : List (BitVec W)) :
    (requestBody rd payload).length = max payload.length rd + 2 := by
  simp only [requestBody, List.length_cons, List.length_append, List.length_replicate]
  omega

/-- What the input state machine makes of a request, and what the other one sees of it while
the tail is shifted. -/
theorem request_accepts (hW : 2 ≤ W) {s : Target W} (hs : s.Ready) (f : FifoSide W) {payload : List (BitVec W)}
    (hwr : payload.length < 2 ^ W - 1) {rd : Nat} {cb ct : List (TapIn × Nat)}
    (hcb : cb.map Prod.fst = (requestBody rd payload).flatMap shiftWord)
    (hct : ct.map Prod.fst = [(0 : BitVec W), 0].flatMap shiftWord) :
    let a := ((inputCycles W).emitted s.input (Target.inputTrace f (cb ++ ct))).length
    ∀ c ∈ ((target f).after s cb).outputTrace f ct, c.inError = false ∧ c.inWritten = BitVec.ofNat W a := by
  intro a c hc
  obtain ⟨n, hle, hdrops, hem, -⟩ := request_cycles hW hwr ((Target.inputTrace_fst f cb).trans hcb) s.input hs.input
    hs.inputBit hs.calm
  obtain ⟨-, hem', halong⟩ := hdrops.inside ((Target.inputTrace_fst f ct).trans hct) (inside_shiftWords _)
  have ha : a = n := by
    have := Transducer.emitted_append (inputCycles W) s.input (Target.inputTrace f cb) (Target.inputTrace f ct)
    rw [← Target.inputTrace_append, hem, hem', List.append_nil] at this
    have hlength := congrArg List.length this
    rwa [List.length_take_of_le hle] at hlength
  rw [← Target.after_input] at halong
  obtain ⟨i, ⟨-, hacc, herror⟩, hce, hca⟩ := Target.outputTrace_along halong c hc
  exact ⟨hce.trans herror, ha ▸ hca.trans hacc⟩

/-- What the output state machine answers to a request. -/
theorem request_sends (hW : 2 ≤ W) {s : Target W} (hs : s.Ready) (f : FifoSide W) {payload : List (BitVec W)}
    (hwr : payload.length < 2 ^ W - 1) {rd : Nat} (hrd : rd < 2 ^ W) {cs : List (TapIn × Nat)}
    (hcs : cs.map Prod.fst = (request rd payload).flatMap shiftWord) :
    let acc := BitVec.ofNat W ((inputCycles W).emitted s.input (Target.inputTrace f cs)).length
    ∃ s' head ps tail, OutputFsm.Sends s.output (s.outputTrace f cs) s'
        (head ++ (ps.flatMap bitsOf ++ zeros W (max payload.length rd - ps.length) ++ tail)) ps ∧
      head.length = 2 * W ∧ ps.length ≤ rd ∧
      (InTime (s.outputTrace f cs) payload.length rd → tail = bitsOf acc ++ bitsOf (BitVec.ofNat W ps.length)) ∧
      (¬InTime (s.outputTrace f cs) payload.length rd → tail = bitsOf (0 : BitVec W) ++ bitsOf acc ∧ ps.length = rd) := by
  intro acc
  rw [request, List.flatMap_append] at hcs
  obtain ⟨cb, ct, rfl, hcb, hct⟩ := List.map_eq_append_iff.mp hcs
  have hob : (s.outputTrace f cb).map OutputIn.tap = (requestBody rd payload).flatMap shiftWord :=
    (Target.outputTrace_tap cb).trans hcb
  have hbody := length_requestBody rd payload
  obtain ⟨s₁, head, ps, hsends, hhead, hps, hgood, hbad⟩ :=
    OutputFsm.body_sends hW hwr hrd hs.output hs.outputBit (Nat.succ.inj (Nat.succ.inj hbody)) hob
  have htail := fun n m => OutputFsm.tail_sends (s := s₁) hW (Target.outputTrace_tap (s := (target f).after s cb) (f := f) ct |>.trans hct)
    (request_accepts hW hs f hwr hcb hct) (n := n) (m := m)
  have htime : InTime (s.outputTrace f (cb ++ ct)) payload.length rd ↔ InTime (s.outputTrace f cb) payload.length rd := by
    rw [Target.outputTrace_append]
    apply inTime_append_left (by omega)
    have hlen := congrArg List.length hob
    rw [List.length_map, length_shiftWords, hbody] at hlen
    rw [hlen]
    exact Nat.mul_le_mul_right W (by omega)
  rw [htime, Target.outputTrace_append]
  by_cases h : InTime (s.outputTrace f cb) payload.length rd
  · obtain ⟨s₂, hsends₂⟩ := (htail _ _).1 (hgood h)
    refine ⟨s₂, head, ps, _, ?_, hhead, hps, fun _ => rfl, fun hnot => absurd h hnot⟩
    have := hsends.append hsends₂
    simpa only [List.append_assoc, List.append_nil] using this
  · obtain ⟨hpad, hall⟩ := hbad h
    have hpos : 0 < max payload.length rd := by
      rcases Nat.eq_zero_or_pos rd with h0 | hpos
      · exact absurd (.inl h0) h
      · omega
    obtain ⟨s₂, hsends₂⟩ := (htail _ _).2 hpos hpad
    refine ⟨s₂, head, ps, _, ?_, hhead, hps, fun hin => absurd hin h, fun _ => ⟨rfl, hall⟩⟩
    have := hsends.append hsends₂
    simpa only [List.append_assoc, List.append_nil] using this

theorem outputTrace_validAt {s : Target W} {f : FifoSide W} {is : List TapIn} {j : Nat} (hj : (j + 1) * W - 1 < is.length) :
    validAt (s.outputTrace f is.zipIdx) j = f.fifoValid ((j + 1) * W - 1) := by
  have hget := congrArg (·[(j + 1) * W - 1]?) (Target.outputTrace_valid (s := s) (f := f) is.zipIdx)
  simp only [List.getElem?_map, List.getElem?_zipIdx, List.getElem?_eq_getElem hj, Nat.zero_add, Option.map_some] at hget
  obtain ⟨c, hc, hcv⟩ := Option.map_eq_some_iff.mp hget
  rw [validAt, hc, Option.any_some, hcv]

/-- The cycles in which the out FIFO may be empty. -/
theorem inTime_outputTrace {s : Target W} (hW : 0 < W) (f : FifoSide W) (payload : List (BitVec W)) (rd : Nat) :
    InTime (s.outputTrace f ((request rd payload).flatMap shiftWord).zipIdx) payload.length rd ↔
      rd = 0 ∨ payload.length ≤ rd ∨ ∃ j < rd, f.fifoValid ((j + 2) * W - 1) = false := by
  have hvalid (j : Nat) (hj : j < rd) :
      validAt (s.outputTrace f ((request rd payload).flatMap shiftWord).zipIdx) (j + 1) = f.fifoValid ((j + 2) * W - 1) := by
    apply outputTrace_validAt
    rw [length_shiftWords, request, List.length_append, length_requestBody]
    have : (j + 1 + 1) * W ≤ (max payload.length rd + 2 + [(0 : BitVec W), 0].length) * W := Nat.mul_le_mul_right W (by omega)
    have : 0 < (j + 1 + 1) * W := Nat.mul_pos (Nat.succ_pos _) hW
    omega
  have hexists : (∃ j < rd, validAt (s.outputTrace f ((request rd payload).flatMap shiftWord).zipIdx) (j + 1) = false) ↔
      ∃ j < rd, f.fifoValid ((j + 2) * W - 1) = false := by
    apply exists_congr
    intro j
    apply and_congr_right
    intro hj
    rw [hvalid j hj]
  rw [InTime, hexists]

/-- The response to a request in the places of the protocol: after two words the first `m`
words of the out FIFO, which are at most those that are wanted, and zeros, then the number of
accepted words, and `m`. -/
def Framed (s : Target W) (f : FifoSide W) (payload : List (BitVec W)) (rd : Nat) : Prop :=
  let cs := ((request rd payload).flatMap shiftWord).zipIdx
  let response := ((target f).emitted s cs).map Prod.fst
  let popped := ((target f).emitted s cs).flatMap Prod.snd
  let accepted := (inputCycles W).emitted s.input (Target.inputTrace f cs)
  popped.length ≤ rd ∧ popped = ((List.range popped.length).map fun k => f.fifo (s.popped + k)) ∧
    response.drop (2 * W) = popped.flatMap bitsOf ++ zeros W (max payload.length rd - popped.length) ++
      (bitsOf (BitVec.ofNat W accepted.length) ++ bitsOf (BitVec.ofNat W popped.length))

instance (s : Target W) (f : FifoSide W) (payload : List (BitVec W)) (rd : Nat) : Decidable (Framed s f payload rd) :=
  inferInstanceAs (Decidable (_ ∧ _))

/-- The response has its frame if and only if nothing is read, not more is written than read,
or the FIFO has no word to give before the last wanted one. -/
theorem response_frame_iff (hW : 2 ≤ W) {s : Target W} (hs : s.Ready) (f : FifoSide W) (payload : List (BitVec W))
    (hwr : payload.length < 2 ^ W - 1) (rd : Nat) (hrd : rd < 2 ^ W) :
    Framed s f payload rd ↔
      rd = 0 ∨ payload.length ≤ rd ∨ ∃ j < rd, f.fifoValid ((j + 2) * W - 1) = false := by
  let cs := ((request rd payload).flatMap shiftWord).zipIdx
  let response := ((target f).emitted s cs).map Prod.fst
  let popped := ((target f).emitted s cs).flatMap Prod.snd
  let accepted := (inputCycles W).emitted s.input (Target.inputTrace f cs)
  obtain ⟨s', head, ps, tail, hsends, hhead, hps, hgood, hbad⟩ :=
    request_sends hW hs f hwr hrd (show cs.map Prod.fst = _ from List.zipIdx_map_fst 0 _)
  have hpopped : popped = ps := by
    rw [← hsends.taken, OutputFsm.taken, ← Target.emitted_eq]
  have hresponse : response.drop (2 * W) =
      ps.flatMap bitsOf ++ zeros W (max payload.length rd - ps.length) ++ tail := by
    have hsent : response = _ := (congrArg (List.map Prod.fst) (Target.emitted_eq cs)).trans hsends.sent
    rw [hsent, ← hhead, List.drop_left]
  have hfifo : ps = (List.range ps.length).map fun k => f.fifo (s.popped + k) := by
    rw [← hsends.taken]
    exact Target.taken_eq cs
  have htime := inTime_outputTrace (s := s) (show 0 < W by omega) f payload rd
  have hframed : Framed s f payload rd ↔ popped.length ≤ rd ∧
      popped = ((List.range popped.length).map fun k => f.fifo (s.popped + k)) ∧
      response.drop (2 * W) = popped.flatMap bitsOf ++ zeros W (max payload.length rd - popped.length) ++
        (bitsOf (BitVec.ofNat W accepted.length) ++ bitsOf (BitVec.ofNat W popped.length)) := Iff.rfl
  rw [hframed, hpopped, hresponse, ← htime]
  constructor
  · rintro ⟨-, -, htail⟩
    by_contra hlate
    obtain ⟨hzero, hall⟩ := hbad hlate
    rw [hzero] at htail
    obtain ⟨hacc, hcount⟩ := bitsOf_append_inj (List.append_cancel_left htail)
    have hcount : BitVec.ofNat W accepted.length = BitVec.ofNat W ps.length := bitsOf_injective hcount
    rw [← hacc, hall] at hcount
    have : rd = 0 := by
      have := congrArg BitVec.toNat hcount
      rw [BitVec.toNat_ofNat, Nat.mod_eq_of_lt hrd] at this
      exact this.symm
    exact hlate (.inl this)
  · intro hin
    exact ⟨hps, hfifo, by rw [hgood hin]⟩

section Runs

def captured : Target 8 :=
  ⟨⟨.idle, 0, 0, 0, 0, false, false⟩, ⟨.idle, 0, 0, 0, 0, 0, 0, 0, 0⟩, 0⟩

private theorem captured_ready : captured.Ready := ⟨rfl, rfl, rfl, rfl, rfl⟩

def flowing : FifoSide 8 := ⟨fun _ => true, fun _ => true, fun k => BitVec.ofNat 8 (0xC0 + k), fun _ => 0⟩

set_option maxRecDepth 4000 in
/-- Two words are written and one is read: the place of the number of accepted words has
zero, and the next one, where the number of read words belongs, has two. -/
theorem response_late :
    let cs := ((request 1 ([0x41, 0x42] : List (BitVec 8))).flatMap shiftWord).zipIdx
    let response := ((target flowing).emitted captured cs).map Prod.fst
    captured.Ready ∧ (inputCycles 8).emitted captured.input (Target.inputTrace flowing cs) = [0x41, 0x42] ∧
      ((target flowing).emitted captured cs).flatMap Prod.snd = [0xC0] ∧
      response.drop 16 = [0xC0, 0, 0, 2].flatMap (bitsOf : BitVec 8 → List Bool) ∧
      ¬Framed captured flowing [0x41, 0x42] 1 := by
  intro cs response
  exact ⟨captured_ready, by decide, by decide, by decide, by decide⟩

set_option maxRecDepth 4000 in
/-- One word is written and two are read. -/
theorem response_frame_iff_read :
    Framed captured flowing [0x41] 2 ∧
      (((target flowing).emitted captured ((request 2 ([0x41] : List (BitVec 8))).flatMap shiftWord).zipIdx).map Prod.fst).drop 16 =
        [0xC0, 0xC1, 1, 2].flatMap (bitsOf : BitVec 8 → List Bool) := by
  have hframed := (response_frame_iff (by decide) captured_ready flowing [0x41] (by decide) 2 (by decide)).mpr
    (.inr (.inl (by decide)))
  exact ⟨hframed, by decide⟩

end Runs
end Glip.Jtag
