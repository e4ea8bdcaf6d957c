import Glip.Jtag.InputWords

/-! What the input state machine does in a whole data transfer. -/
namespace Glip.Jtag
open Foundation
variable {W : Nat}

/-- The cycles of the TAP in which nothing is shifted: those in no state of interest,
Capture-DR and Update-DR. -/
def TapIn.quiet (tdi : Bool) : TapIn := ⟨tdi, false, false, false⟩

def TapIn.captureDr (tdi : Bool) : TapIn := ⟨tdi, false, false, true⟩

def TapIn.updateDr (tdi : Bool) : TapIn := ⟨tdi, false, true, false⟩

def TapIn.Inside (i : TapIn) : Prop := i.update = false ∧ i.capture = false

theorem inside_shiftWords (ws : List (BitVec W)) : ∀ i ∈ ws.flatMap shiftWord, i.Inside := by
  intro i hi
  obtain ⟨w, -, hi⟩ := List.mem_flatMap.mp hi
  obtain ⟨b, -, rfl⟩ := List.mem_map.mp hi
  exact ⟨rfl, rfl⟩

theorem inside_quiet (tdis : List Bool) : ∀ i ∈ tdis.map TapIn.quiet, i.Inside := by
  intro i hi
  obtain ⟨b, -, rfl⟩ := List.mem_map.mp hi
  exact ⟨rfl, rfl⟩

structure InputFsm.Drops (s : InputFsm W) (acc : BitVec W) (error : Bool) : Prop where
  state : s.inputState = .dropPacket
  accCnt : s.accCnt = acc
  error : s.error = error
  calm : s.Calm

namespace InputFsm.Drops
variable {s : InputFsm W} {acc : BitVec W} {error : Bool} {cs : List (TapIn × Bool)}

theorem inside (h : s.Drops acc error) {is : List TapIn} (hcs : cs.map Prod.fst = is) (his : ∀ i ∈ is, i.Inside) :
    ((inputCycles W).after s cs).Drops acc error ∧ (inputCycles W).emitted s cs = [] ∧
      (inputCycles W).Along (fun s' => s'.Calm ∧ s'.accCnt = acc ∧ s'.error = error) s cs := by
  have hinside : ∀ c ∈ cs, c.1.update = false ∧ c.1.capture = false := by
    intro c hc
    apply his
    rw [← hcs]
    exact List.mem_map_of_mem hc
  obtain ⟨⟨hs, ha, herr, hr⟩, he, hp⟩ := drop_cycles hinside s h.state h.calm
  rw [h.accCnt, h.error] at hp
  exact ⟨⟨hs, ha.trans h.accCnt, herr.trans h.error, hr⟩, he, hp⟩

theorem capture (h : s.Drops acc error) (tdi ready : Bool) :
    let s' := (inputCycles W).next s (.captureDr tdi, ready)
    s'.inputState = .idle ∧ s'.bitCnt = 0 ∧ s'.Calm ∧ (inputCycles W).emit s (.captureDr tdi, ready) = [] := by
  have hr : s.jtagReset = false := h.calm
  simp [inputCycles, InputFsm.next, InputFsm.wires, InputFsm.offers, InputFsm.Calm, TapIn.captureDr, h.state, hr]

theorem update (h : s.Drops acc error) (tdi ready : Bool) :
    ((inputCycles W).next s (.updateDr tdi, ready)).Drops 0 false ∧
      (inputCycles W).emit s (.updateDr tdi, ready) = [] := by
  refine ⟨⟨?_, ?_, ?_, ?_⟩, ?_⟩ <;>
    simp [inputCycles, InputFsm.next, InputFsm.wires, InputFsm.offers, InputFsm.Calm, TapIn.updateDr, h.state]

end InputFsm.Drops

/-- The words of a payload are accepted up to the first one for which the FIFO is not ready. -/
theorem payload_cycles {ws : List (BitVec W)} (hW : 0 < W) (hne : ws ≠ []) (hlt : ws.length < 2 ^ W)
    {cs : List (TapIn × Bool)} (hcs : cs.map Prod.fst = ws.flatMap shiftWord) (s : InputFsm W)
    (hs : s.inputState = .readPacket) (hb : s.bitCnt = 0) (hr : s.Calm) (hcnt : s.inRegCnt = BitVec.ofNat W ws.length) :
    ∃ a ≤ ws.length, ((inputCycles W).after s cs).Drops (s.accCnt + BitVec.ofNat W a) false ∧
      (inputCycles W).emitted s cs = ws.take a ∧ (inputCycles W).Along InputFsm.Calm s cs ∧
      ((∀ c ∈ cs, c.2 = true) → a = ws.length) := by
  induction ws generalizing s cs with
  | nil => exact absurd rfl hne
  | cons w ws ih =>
    rw [List.flatMap_cons] at hcs
    obtain ⟨c₁, c₂, rfl, hc₁, hc₂⟩ := List.map_eq_append_iff.mp hcs
    have hlen := length_word hc₁
    have hn : W - 1 < c₁.length := by omega
    obtain ⟨ha, he, hp⟩ := readPacket_word hc₁ (n := W - 1) (by omega) s hs hb hr hn
    rw [Transducer.after_append, Transducer.emitted_append, Transducer.along_append]
    -- the counter runs out with the last word
    have hleft : s.inRegCnt - 1 = BitVec.ofNat W ws.length := by
      rw [hcnt, List.length_cons, BitVec.ofNat_add]
      exact BitVec.add_sub_cancel _ _
    generalize (inputCycles W).after s c₁ = s' at ha hp ⊢
    by_cases hready : c₁[W - 1].2 = true
    · rw [hleft] at ha
      simp only [hready, if_true] at ha he
      rw [he]
      by_cases hlast : ws = []
      · subst hlast
        obtain rfl := List.map_eq_nil_iff.mp hc₂
        rw [if_pos (show BitVec.ofNat W ([] : List (BitVec W)).length = 0 from rfl)] at ha
        refine ⟨1, Nat.le_refl 1, ⟨?_, ?_, ?_, ?_⟩, rfl, ⟨hp, Transducer.along_nil _ _ _⟩, fun _ => rfl⟩
        all_goals rw [Transducer.after_nil, ha]
        · rfl
        · exact hr
      · have hpos : BitVec.ofNat W ws.length ≠ 0 := by
          intro h0
          have := congrArg BitVec.toNat h0
          rw [BitVec.toNat_ofNat, Nat.mod_eq_of_lt (Nat.lt_of_succ_lt hlt)] at this
          exact hlast (List.eq_nil_of_length_eq_zero this)
        rw [if_neg hpos] at ha
        have hacc : s'.accCnt = s.accCnt + 1 := by rw [ha]
        obtain ⟨a, hle, hdrops, hem, hq, hall⟩ := ih hlast (Nat.lt_of_succ_lt hlt) hc₂ s' (by rw [ha]) (by rw [ha, ← hb])
          (by rw [ha]; exact hr) (by rw [ha])
        rw [hacc, BitVec.add_assoc, BitVec.add_comm 1] at hdrops
        refine ⟨a + 1, Nat.succ_le_succ hle, ?_, ?_, ⟨hp, hq⟩, fun h => ?_⟩
        · rw [BitVec.ofNat_add]
          exact hdrops
        · rw [hem]
          rfl
        · rw [hall fun c hc => h c (List.mem_append_right _ hc), List.length_cons]
    · simp only [hready, if_false, Bool.false_eq_true] at ha he
      have hdrops : s'.Drops s.accCnt false := by
        subst ha
        exact ⟨rfl, rfl, rfl, hr⟩
      obtain ⟨hd, hem, hq⟩ := hdrops.inside hc₂ (inside_shiftWords ws)
      refine ⟨0, Nat.zero_le _, ?_, ?_, ⟨hp, fun k hk => (hq k hk).1⟩, fun h => ?_⟩
      · rw [BitVec.add_zero]
        exact hd
      · rw [he, hem]
        rfl
      · exact absurd (h _ (List.mem_append_left _ (List.getElem_mem _))) hready

def requestBody (rd : Nat) (payload : List (BitVec W)) : List (BitVec W) :=
  BitVec.ofNat W payload.length :: BitVec.ofNat W rd ::
    (payload ++ List.replicate (max payload.length rd - payload.length) 0)

/-- What the state machine makes of a request: it accepts the first words of the payload,
and has counted them before the tail of the request is shifted. -/
theorem request_cycles (hW : 2 ≤ W) {rd : Nat} {payload : List (BitVec W)} (hlt : payload.length < 2 ^ W - 1)
    {cs : List (TapIn × Bool)} (hcs : cs.map Prod.fst = (requestBody rd payload).flatMap shiftWord) (s : InputFsm W)
    (hs : s.inputState = .idle) (hb : s.bitCnt = 0) (hr : s.Calm) :
    ∃ a ≤ payload.length, ((inputCycles W).after s cs).Drops (BitVec.ofNat W a) false ∧
      (inputCycles W).emitted s cs = payload.take a ∧ (inputCycles W).Along InputFsm.Calm s cs ∧
      ((∀ c ∈ cs, c.2 = true) → a = payload.length) := by
  rw [requestBody, List.flatMap_cons] at hcs
  obtain ⟨c₁, c, rfl, hc₁, hc⟩ := List.map_eq_append_iff.mp hcs
  have hcount : (BitVec.ofNat W payload.length).toNat = payload.length := by
    rw [BitVec.toNat_ofNat, Nat.mod_eq_of_lt (by omega)]
  have hones : BitVec.ofNat W payload.length ≠ BitVec.allOnes W := by
    intro h
    rw [h, BitVec.toNat_allOnes] at hcount
    omega
  obtain ⟨ha₁, he₁, hp₁⟩ := header_word hc₁ hW hones s hs hb hr
  rw [Transducer.after_append, Transducer.emitted_append, Transducer.along_append]
  generalize (inputCycles W).after s c₁ = s₁ at ha₁ ⊢
  by_cases hnil : payload = []
  · subst hnil
    rw [if_pos (show BitVec.ofNat W ([] : List (BitVec W)).length = 0 from rfl)] at ha₁
    have hdrops : s₁.Drops 0 false := by
      subst ha₁
      exact ⟨rfl, rfl, rfl, rfl⟩
    obtain ⟨hd, hem, hq⟩ := hdrops.inside hc (inside_shiftWords _)
    exact ⟨0, Nat.le_refl 0, hd, by rw [he₁, hem]; rfl, ⟨hp₁, fun k hk => (hq k hk).1⟩, fun _ => rfl⟩
  · have hzero : BitVec.ofNat W payload.length ≠ 0 := by
      intro h
      rw [h] at hcount
      exact hnil (List.eq_nil_of_length_eq_zero hcount.symm)
    rw [if_neg hzero] at ha₁
    rw [List.flatMap_cons] at hc
    obtain ⟨c₂, c₃, rfl, hc₂, hc₃⟩ := List.map_eq_append_iff.mp hc
    rw [Transducer.after_append, Transducer.emitted_append, Transducer.along_append]
    obtain ⟨ha₂, he₂, hp₂⟩ := ignoreReadLength_word hc₂ (n := W - 1) (by omega) s₁ (by rw [ha₁]) (by rw [ha₁])
      (by rw [ha₁]; rfl)
    rw [List.flatMap_append] at hc₃
    obtain ⟨c₃, c₄, rfl, hc₃, hc₄⟩ := List.map_eq_append_iff.mp hc₃
    rw [Transducer.after_append, Transducer.emitted_append, Transducer.along_append]
    generalize (inputCycles W).after s₁ c₂ = s₂ at ha₂ ⊢
    rw [ha₁] at ha₂
    obtain ⟨a, hle, hdrops, he₃, hp₃, hall⟩ := payload_cycles (by omega) hnil (by omega) hc₃ s₂ (by rw [ha₂]) (by rw [ha₂])
      (by rw [ha₂]; rfl) (by rw [ha₂])
    rw [show s₂.accCnt = 0#W by rw [ha₂]; rfl, BitVec.zero_add] at hdrops
    obtain ⟨hd, he₄, hp₄⟩ := hdrops.inside hc₄ (inside_shiftWords _)
    refine ⟨a, hle, hd, by rw [he₁, he₂, he₃, he₄]; simp, ⟨hp₁, hp₂, hp₃, fun k hk => (hp₄ k hk).1⟩, fun h => hall fun c hc => ?_⟩
    exact h c (List.mem_append_right _ (List.mem_append_right _ (List.mem_append_left _ hc)))

end Glip.Jtag
