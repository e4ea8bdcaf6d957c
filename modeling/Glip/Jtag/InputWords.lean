import Glip.Jtag.InputFsm

/-! What the input state machine does with a whole word of a scan. -/
namespace Glip.Jtag
open Foundation
variable {W : Nat}

def TapIn.bit (b : Bool) : TapIn := ⟨b, true, false, false⟩

def shiftWord (v : BitVec W) : List TapIn := (bitsOf v).map TapIn.bit

@[simp] theorem length_shiftWord (v : BitVec W) : (shiftWord v).length = W := by simp [shiftWord]

theorem length_shiftWords (ws : List (BitVec W)) : (ws.flatMap shiftWord).length = ws.length * W := by
  induction ws with
  | nil => exact (Nat.zero_mul W).symm
  | cons w ws ih => rw [List.flatMap_cons, List.length_append, length_shiftWord, ih, List.length_cons, Nat.succ_mul, Nat.add_comm]

theorem getElem_shiftWord (v : BitVec W) (k : Nat) (h : k < (shiftWord v).length) :
    (shiftWord v)[k] = TapIn.bit (bitAt v k) := by simp [shiftWord]

/-- The state machine over cycles in which its FIFO is ready or not; `jtag_reset` is part
of the reset of the next cycle. -/
def inputCycles (W : Nat) : Transducer (InputFsm W) (TapIn × Bool) (BitVec W) where
  next s i := s.next s.jtagReset i.1 i.2
  emit s i := s.offers i.1 i.2

def InputFsm.Calm (s : InputFsm W) : Prop := s.jtagReset = false

theorem withTop_loaded {x v : BitVec W} {k : Nat} (hk : k + 1 = W) :
    withTop (bitAt v k) (setBit (loaded x v k) k (bitAt v k)) = v := by
  subst hk
  have hall : setBit (loaded x v k) k (bitAt v k) = v := loaded_all x v
  rw [hall, withTop, Nat.add_sub_cancel]
  apply BitVec.eq_of_getLsbD_eq
  intro i hi
  rw [getLsbD_setBit]
  split
  case isTrue h => rw [h.1, bitAt]
  case isFalse => rfl

theorem length_word {β : Type} {f : β → TapIn} {cs : List β} {v : BitVec W} (h : cs.map f = shiftWord v) : cs.length = W := by
  have := congrArg List.length h
  simpa using this

theorem getElem_word {β : Type} {f : β → TapIn} {cs : List β} {v : BitVec W} (h : cs.map f = shiftWord v) {k : Nat}
    (hk : k < cs.length) : f cs[k] = TapIn.bit (bitAt v k) := by
  have hmap : (cs.map f)[k]? = (shiftWord v)[k]? := by rw [h]
  have hk' : k < (shiftWord v).length := by rwa [length_shiftWord, ← length_word h]
  rw [List.getElem?_map, List.getElem?_eq_getElem hk, List.getElem?_eq_getElem hk', getElem_shiftWord] at hmap
  exact Option.some.inj hmap

section Words
variable {v : BitVec W} {cs : List (TapIn × Bool)} (hcs : cs.map Prod.fst = shiftWord v)
include hcs

/-- The first word is loaded up to its last bit. -/
private theorem header_bits {n : Nat} (hn : n ≠ 0) (hW : W = n + 1) (s : InputFsm W) (hs : s.inputState = .idle)
    (hb : s.bitCnt = 0) (hr : s.Calm) (hlt : n < cs.length) :
    let last : InputFsm W := ⟨.readPacketLength, BitVec.ofNat W n, 0, loaded 0 v n, 0, false, false⟩
    (inputCycles W).after s cs = (inputCycles W).next last cs[n] ∧
      (inputCycles W).emitted s cs = (inputCycles W).emit last cs[n] ∧ (inputCycles W).Along InputFsm.Calm s cs := by
  subst hW
  have hlen := length_word hcs
  obtain ⟨ha, he, hp⟩ := (inputCycles (n + 1)).word (P := InputFsm.Calm)
    (fun k => if k = 0 then s else ⟨.readPacketLength, BitVec.ofNat _ k, 0, loaded 0 v k, 0, false, false⟩)
    (fun _ => []) hlen (fun k hk => by
      have hbit := getElem_word hcs (k := k) (by omega)
      rw [InputFsm.Calm] at hr
      by_cases h0 : k = 0
      · subst h0
        simp [inputCycles, InputFsm.next, InputFsm.offers, InputFsm.wires, hs, hb, hr, hbit, TapIn.bit, loaded]
      · have hcnt : (BitVec.ofNat (n + 1) k).toNat = k := toNat_count (by omega)
        simp [inputCycles, InputFsm.next, InputFsm.offers, InputFsm.wires, h0, hcnt, hk, hbit, TapIn.bit, loaded,
          BitVec.ofNat_add]) fun k _ => by
      split
      case isTrue => exact hr
      case isFalse => rfl
  rw [if_pos rfl] at ha he hp
  rw [if_neg hn] at ha he
  refine ⟨ha, he.trans ?_, hp⟩
  simp

/-- The first word of a scan is the number of words to write. Without any the rest of the
scan is dropped. -/
theorem header_word (hW : 2 ≤ W) (hv : v ≠ BitVec.allOnes W) (s : InputFsm W) (hs : s.inputState = .idle)
    (hb : s.bitCnt = 0) (hr : s.Calm) :
    (inputCycles W).after s cs =
        ⟨if v = 0 then .dropPacket else .ignoreReadLength, 0, 0, v, 0, false, false⟩ ∧
      (inputCycles W).emitted s cs = [] ∧ (inputCycles W).Along InputFsm.Calm s cs := by
  obtain ⟨n, rfl⟩ : ∃ n, W = n + 1 := ⟨W - 1, by omega⟩
  have hlen := length_word hcs
  obtain ⟨ha, he, hp⟩ := header_bits hcs (by omega) rfl s hs hb hr (by omega)
  have hcnt : (BitVec.ofNat (n + 1) n).toNat = n := toNat_count (by omega)
  have hbit := getElem_word hcs (k := n) (by omega)
  have hall : setBit (loaded 0 v n) n (bitAt v n) = v := loaded_all 0 v
  have htop := withTop_loaded (x := 0) (v := v) rfl
  rw [hall] at htop
  rw [ha, he]
  generalize loaded 0 v n = x at hall
  refine ⟨?_, ?_, hp⟩
  · simp [inputCycles, InputFsm.next, InputFsm.wires, hcnt, hbit, TapIn.bit, hall, htop, hv]
    split <;> rfl
  · simp [inputCycles, InputFsm.offers, InputFsm.wires, hcnt, hbit, TapIn.bit, hall, htop, hv]
    split <;> rfl

/-- Whatever it is, also all ones, it is in `in_reg_cnt` afterwards. -/
theorem header_inRegCnt (hW : 2 ≤ W) (s : InputFsm W) (hs : s.inputState = .idle) (hb : s.bitCnt = 0) (hr : s.Calm) :
    ((inputCycles W).after s cs).inRegCnt = v := by
  obtain ⟨n, rfl⟩ : ∃ n, W = n + 1 := ⟨W - 1, by omega⟩
  have hlen := length_word hcs
  obtain ⟨ha, -, -⟩ := header_bits hcs (by omega) rfl s hs hb hr (by omega)
  have hcnt : (BitVec.ofNat (n + 1) n).toNat = n := toNat_count (by omega)
  have hbit := getElem_word hcs (k := n) (by omega)
  have hall : setBit (loaded 0 v n) n (bitAt v n) = v := loaded_all 0 v
  rw [ha]
  generalize loaded 0 v n = x at hall
  simp [inputCycles, InputFsm.next, InputFsm.wires, hcnt, hbit, TapIn.bit, hall]
  split_ifs <;> rfl

/-- The second one is the number of words to read, which is not looked at. -/
theorem ignoreReadLength_word {n : Nat} (hW : W = n + 1) (s : InputFsm W) (hs : s.inputState = .ignoreReadLength)
    (hb : s.bitCnt = 0) (hr : s.Calm) :
    (inputCycles W).after s cs = { s with inputState := .readPacket } ∧
      (inputCycles W).emitted s cs = [] ∧ (inputCycles W).Along InputFsm.Calm s cs := by
  obtain ⟨st, bitCnt, data, cnt, acc, reset, error⟩ := s
  dsimp only [InputFsm.Calm] at hs hb hr
  subst hs hb hr hW
  have hlen := length_word hcs
  obtain ⟨ha, he, hp⟩ := (inputCycles (n + 1)).word (P := InputFsm.Calm)
    (fun k => ⟨.ignoreReadLength, BitVec.ofNat _ k, data, cnt, acc, false, error⟩)
    (fun _ => []) hlen (fun k hk => by
      have hcnt : (BitVec.ofNat (n + 1) k).toNat = k := toNat_count (by omega)
      have hbit := getElem_word hcs (k := k) (by omega)
      have hne : k ≠ n := by omega
      simp [inputCycles, InputFsm.next, InputFsm.offers, InputFsm.wires, hcnt, hne, hbit, TapIn.bit,
        BitVec.ofNat_add]) fun _ _ => rfl
  have hcnt : (BitVec.ofNat (n + 1) n).toNat = n := toNat_count (by omega)
  have hbit := getElem_word hcs (k := n) (by omega)
  refine ⟨ha.trans ?_, he.trans ?_, hp⟩
  · simp [inputCycles, InputFsm.next, InputFsm.wires, hcnt, hbit, TapIn.bit]
  · simp [inputCycles, InputFsm.offers, InputFsm.wires, hcnt]

/-- A word of the payload is offered to the FIFO; a FIFO that is not ready for it ends
the transfer. -/
theorem readPacket_word {n : Nat} (hW : W = n + 1) (s : InputFsm W) (hs : s.inputState = .readPacket) (hb : s.bitCnt = 0)
    (hr : s.Calm) (hn : n < cs.length) :
    (inputCycles W).after s cs =
        { s with
          inputState := if cs[n].2 then if s.inRegCnt - 1 = 0 then .dropPacket else .readPacket else .dropPacket
          inRegData := v, error := false
          accCnt := if cs[n].2 then s.accCnt + 1 else s.accCnt
          inRegCnt := if cs[n].2 then s.inRegCnt - 1 else s.inRegCnt } ∧
      (inputCycles W).emitted s cs = (if cs[n].2 then [v] else []) ∧ (inputCycles W).Along InputFsm.Calm s cs := by
  obtain ⟨st, bitCnt, data, cnt, acc, reset, error⟩ := s
  dsimp only [InputFsm.Calm] at hs hb hr
  subst hs hb hr hW
  have hlen := length_word hcs
  obtain ⟨ha, he, hp⟩ := (inputCycles (n + 1)).word (P := InputFsm.Calm)
    (fun k => ⟨.readPacket, BitVec.ofNat _ k, loaded data v k, cnt, acc, false, if k = 0 then error else false⟩)
    (fun _ => []) hlen (fun k hk => by
      have hcnt : (BitVec.ofNat (n + 1) k).toNat = k := toNat_count (by omega)
      have hbit := getElem_word hcs (k := k) (by omega)
      simp [inputCycles, InputFsm.next, InputFsm.offers, InputFsm.wires, hcnt, hk, hbit, TapIn.bit, loaded,
        BitVec.ofNat_add]) fun _ _ => rfl
  have hcnt : (BitVec.ofNat (n + 1) n).toNat = n := toNat_count (by omega)
  have hbit := getElem_word hcs hn
  have hall : setBit (loaded data v n) n (bitAt v n) = v := loaded_all data v
  have htop := withTop_loaded (x := data) (v := v) rfl
  rw [hall] at htop
  have hstart : (⟨.readPacket, BitVec.ofNat (n + 1) 0, loaded data v 0, cnt, acc, false,
      if 0 = 0 then error else false⟩ : InputFsm (n + 1)) = ⟨.readPacket, 0, data, cnt, acc, false, error⟩ := rfl
  rw [hstart] at ha he hp
  rw [ha, he]
  refine ⟨?_, ?_, hp⟩ <;> cases hready : cs[n].2 <;>
    simp [inputCycles, InputFsm.next, InputFsm.offers, InputFsm.wires, hcnt, hbit, TapIn.bit, hall, htop, hready]

end Words

/-- What is not wanted of a scan changes nothing before the next update or capture. -/
theorem drop_cycles {cs : List (TapIn × Bool)} (hcs : ∀ c ∈ cs, c.1.update = false ∧ c.1.capture = false)
    (s : InputFsm W) (hs : s.inputState = .dropPacket) (hr : s.Calm) :
    let s' := (inputCycles W).after s cs
    (s'.inputState = .dropPacket ∧ s'.accCnt = s.accCnt ∧ s'.error = s.error ∧ s'.Calm) ∧
      (inputCycles W).emitted s cs = [] ∧
      (inputCycles W).Along (fun s' => s'.Calm ∧ s'.accCnt = s.accCnt ∧ s'.error = s.error) s cs := by
  induction cs generalizing s with
  | nil => exact ⟨⟨hs, rfl, rfl, hr⟩, rfl, Transducer.along_nil _ _ _⟩
  | cons c cs ih =>
    obtain ⟨hu, hc⟩ := hcs c (.head cs)
    have hn : (inputCycles W).next s c = { s with bitCnt := 0, jtagReset := false } := by
      simp [inputCycles, InputFsm.next, InputFsm.wires, hs, hu, hc, show s.jtagReset = false from hr]
    have he : (inputCycles W).emit s c = [] := by
      simp [inputCycles, InputFsm.offers, InputFsm.wires, hs, hu, hc]
    rw [Transducer.after_cons, Transducer.emitted_cons, Transducer.along_cons, hn, he]
    obtain ⟨ha, hem, hp⟩ := ih (fun d hd => hcs d (.tail c hd)) { s with bitCnt := 0, jtagReset := false } hs rfl
    exact ⟨ha, hem, ⟨hr, rfl, rfl⟩, hp⟩

end Glip.Jtag
