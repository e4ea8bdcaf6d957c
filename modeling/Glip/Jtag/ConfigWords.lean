import Glip.Jtag.ConfigFsm

/-! What the configuration state machine does with a whole word of a scan. -/
namespace Glip.Jtag
open Foundation
variable {W N : Nat}

namespace ConfigFsm

def Silent (s : ConfigFsm W) : Prop := s.ctrlLogicRst = false

theorem pulses_silent {s : ConfigFsm W} {is : List TapIn} (h : (configCycles W N).Along Silent s is) :
    pulses N s is = 0 := by
  induction is generalizing s with
  | nil => rfl
  | cons i is ih =>
    obtain ⟨hs, h⟩ := (configCycles W N).along_cons.mp h
    have hcons := pulses_append N s [i] is
    have hfirst : pulses N s [i] = 0 := by
      rw [Silent] at hs
      simp [pulses, configCycles, hs]
    rw [hfirst, Nat.zero_add] at hcons
    exact hcons.trans (ih h)

/-- After the header nothing happens before the update. -/
theorem wait_cycles {s : ConfigFsm W} (hs : s.configState = .waitForUpdate) (hr : s.Silent) {is : List TapIn}
    (his : ∀ i ∈ is, i.update = false) :
    let s' := (configCycles W N).after s is
    s'.configState = .waitForUpdate ∧ s'.Silent ∧ (configCycles W N).Along Silent s is := by
  induction is generalizing s with
  | nil => exact ⟨hs, hr, Transducer.along_nil _ _ _⟩
  | cons i is ih =>
    have hu := his i (.head is)
    have hnext : s.next N i = { s with ctrlLogicRst := false } := by
      rw [next, if_neg (by simp [hu])]
      simp [wires, hs, hu]
    have h := ih (s := s.next N i) (by rw [hnext, hs]) (by rw [hnext]; rfl) fun j hj => his j (.tail i hj)
    exact ⟨h.1, h.2.1, (configCycles W N).along_cons.mpr ⟨hr, h.2.2⟩⟩

/-- Without a shift the machine waits for the header. -/
theorem idle_cycles {s : ConfigFsm W} (hs : s.configState = .idle) (hr : s.Silent) {is : List TapIn}
    (his : ∀ i ∈ is, i.shift = false ∧ i.update = false) :
    (configCycles W N).after s is = s ∧ (configCycles W N).Along Silent s is := by
  induction is with
  | nil => exact ⟨rfl, Transducer.along_nil _ _ _⟩
  | cons i is ih =>
    obtain ⟨hshift, hu⟩ := his i (.head is)
    have hnext : (configCycles W N).next s i = s := by
      obtain ⟨st, cnt, reg, data, config, rst⟩ := s
      dsimp only [Silent] at hs hr
      subst hs hr
      simp [configCycles, next, wires, hshift, hu]
    obtain ⟨ha, hp⟩ := ih fun j hj => his j (.tail i hj)
    rw [Transducer.after_cons, Transducer.along_cons, hnext]
    exact ⟨ha, hr, hp⟩

/-- The steps for the bits of a header. -/
theorem idle_step (v : BitVec W) {k : Nat} (hk : k + 1 < W) :
    (configCycles W N).next ⟨.idle, BitVec.ofNat _ k, loaded 0 v k, false, false, false⟩ (.bit (bitAt v k)) =
      ⟨.idle, BitVec.ofNat _ (k + 1), loaded 0 v (k + 1), false, false, false⟩ := by
  have hcnt : (BitVec.ofNat W k).toNat = k := toNat_count (by omega)
  have hne : k ≠ W - 1 := by omega
  simp [configCycles, next, wires, hcnt, hne, TapIn.bit, loaded, BitVec.ofNat_add]

theorem header_word (hW : 0 < W) (v : BitVec W) :
    (configCycles W N).after (cleared W) (shiftWord v) =
        (if v = BitVec.allOnes W then ⟨.sendWordWidth, 0, v, false, true, false⟩
        else ⟨.waitForUpdate, 0, v, true, false, false⟩) ∧
      (configCycles W N).Along Silent (cleared W) (shiftWord v) := by
  obtain ⟨n, rfl⟩ : ∃ n, W = n + 1 := ⟨W - 1, by omega⟩
  have hn : n < (shiftWord v).length := by rw [length_shiftWord]; omega
  obtain ⟨ha, -, hp⟩ := (configCycles (n + 1) N).word (P := Silent)
    (fun k => ⟨.idle, BitVec.ofNat _ k, loaded 0 v k, false, false, false⟩) (fun _ => [(false, false)])
    (length_shiftWord v) (fun k hk => by
      rw [getElem_shiftWord]
      refine ⟨idle_step v (by omega), ?_⟩
      have hcnt : (BitVec.ofNat (n + 1) k).toNat = k := toNat_count (by omega)
      have hne : k ≠ n := by omega
      simp [configCycles, wires, hcnt, hne, TapIn.bit]) fun _ _ => rfl
  refine ⟨ha.trans ?_, hp⟩
  have hcnt : (BitVec.ofNat (n + 1) n).toNat = n := toNat_count (by omega)
  have hall : setBit (loaded 0 v n) n (bitAt v n) = v := loaded_all 0 v
  have htop : withTop (bitAt v n) (loaded 0 v n) = v := by
    rw [withTop, Nat.add_sub_cancel]
    exact hall
  rw [getElem_shiftWord]
  generalize loaded 0 v n = x at hall htop
  simp [configCycles, next, wires, hcnt, TapIn.bit, hall, htop]
  split <;> rfl

/-- A scan that is shorter than a header is not answered. -/
theorem short_scan {v : BitVec W} {m : Nat} (hm : m < W) :
    ((configCycles W N).after (cleared W) ((shiftWord v).take m)).configState = .idle ∧
      ((configCycles W N).after (cleared W) ((shiftWord v).take m)).Silent ∧
      (configCycles W N).Along Silent (cleared W) ((shiftWord v).take m) := by
  have hlen : ((shiftWord v).take m).length = m := by
    rw [List.length_take, length_shiftWord]
    omega
  have hstep (k : Nat) (hk : k < ((shiftWord v).take m).length) : (configCycles W N).next
      ⟨.idle, BitVec.ofNat _ k, loaded 0 v k, false, false, false⟩ ((shiftWord v).take m)[k] =
        ⟨.idle, BitVec.ofNat _ (k + 1), loaded 0 v (k + 1), false, false, false⟩ := by
    rw [List.getElem_take, getElem_shiftWord]
    exact idle_step v (by omega)
  have hafter := ((configCycles W N).steps _
    (fun k => (configCycles W N).emit ⟨.idle, BitVec.ofNat _ k, loaded 0 v k, false, false, false⟩ (.bit (bitAt v k)))
    _ fun k hk => ⟨hstep k hk, by rw [List.getElem_take, getElem_shiftWord]⟩).1
  have halong := (configCycles W N).steps_along (P := Silent) _ _ hstep fun _ _ => rfl
  rw [hlen] at hafter
  exact ⟨congrArg configState hafter, congrArg ctrlLogicRst hafter, halong⟩

section Answer
variable {r : BitVec W} (v : BitVec W)

/-- The word after a header of ones: it is answered with `WORD_WIDTH`, and its first bit
resets the logic. -/
theorem sendWordWidth_word (hW : 2 ≤ W) :
    (configCycles W N).after ⟨.sendWordWidth, 0, r, false, true, false⟩ (shiftWord v) =
        ⟨.sendBufferSize, 0, r, false, true, false⟩ ∧
      ((configCycles W N).emitted ⟨.sendWordWidth, 0, r, false, true, false⟩ (shiftWord v)).map Prod.fst =
        bitsOf (BitVec.ofNat W W) ∧
      pulses N ⟨.sendWordWidth, 0, r, false, true, false⟩ (shiftWord v) = (if bitAt v 0 then 1 else 0) ∧
      (configCycles W N).Along (fun s => s.configDiscovery = true) ⟨.sendWordWidth, 0, r, false, true, false⟩
        (shiftWord v) := by
  obtain ⟨n, rfl⟩ : ∃ n, W = n + 1 := ⟨W - 1, by omega⟩
  have hn : n < (shiftWord v).length := by rw [length_shiftWord]; omega
  have h0 : n ≠ 0 := by omega
  have hcnt : (BitVec.ofNat (n + 1) n).toNat = n := toNat_count (by omega)
  have hzero (k : Nat) (hk : k < n + 1) : BitVec.ofNat (n + 1) k = 0#(n + 1) ↔ k = 0 := by
    rw [← BitVec.toNat_inj, toNat_count hk]
    rfl
  obtain ⟨ha, he, hp⟩ := (configCycles (n + 1) N).word_each (P := fun s => s.configDiscovery = true)
    (fun k => ⟨.sendWordWidth, BitVec.ofNat _ k, r, false, true, decide (k = 1) && bitAt v 0⟩)
    (fun k => (bitAt (BitVec.ofNat (n + 1) (n + 1)) k, decide (k = 1) && bitAt v 0)) (length_shiftWord v) (fun k hk => by
      have hcnt : (BitVec.ofNat (n + 1) k).toNat = k := toNat_count (by omega)
      have hne : k ≠ n := by omega
      rw [getElem_shiftWord]
      by_cases hk0 : k = 0
      · subst hk0
        simp [configCycles, next, wires, h0.symm, TapIn.bit]
      · simp [configCycles, next, wires, hcnt, hne, hzero k (by omega), hk0, TapIn.bit, BitVec.ofNat_add]) (by
      simp [configCycles, wires, hcnt]) fun _ _ => rfl
  have hstart : (⟨.sendWordWidth, BitVec.ofNat _ 0, r, false, true, decide (0 = 1) && bitAt v 0⟩ : ConfigFsm (n + 1)) =
      ⟨.sendWordWidth, 0, r, false, true, false⟩ := rfl
  rw [hstart] at ha he hp
  refine ⟨ha.trans ?_, ?_, ?_, hp⟩
  · rw [getElem_shiftWord]
    simp [configCycles, next, wires, hcnt, hzero n (by omega), h0, TapIn.bit]
  · rw [he, List.map_map]
    rfl
  · have hcount : (List.range (n + 1)).countP (fun k => decide (k = 1)) = 1 :=
      List.count_range.trans (if_pos (by omega))
    rw [pulses, he, List.countP_map]
    cases hv : bitAt v 0
    · rw [List.countP_eq_zero.mpr]
      · rfl
      · simp
    · simpa [Function.comp_def] using hcount

/-- The word after it is answered with `NUM_WORDS`. -/
theorem sendBufferSize_word (hW : 0 < W) :
    (configCycles W N).after ⟨.sendBufferSize, 0, r, false, true, false⟩ (shiftWord v) =
        ⟨.waitForUpdate, 0, 0, false, true, false⟩ ∧
      ((configCycles W N).emitted ⟨.sendBufferSize, 0, r, false, true, false⟩ (shiftWord v)).map Prod.fst =
        bitsOf (BitVec.ofNat W N) ∧
      (configCycles W N).Along (fun s => s.configDiscovery = true ∧ s.Silent)
        ⟨.sendBufferSize, 0, r, false, true, false⟩ (shiftWord v) := by
  obtain ⟨n, rfl⟩ : ∃ n, W = n + 1 := ⟨W - 1, by omega⟩
  have hn : n < (shiftWord v).length := by rw [length_shiftWord]; omega
  have hcnt : (BitVec.ofNat (n + 1) n).toNat = n := toNat_count (by omega)
  obtain ⟨ha, he, hp⟩ := (configCycles (n + 1) N).word_each (P := fun s => s.configDiscovery = true ∧ s.Silent)
    (fun k => ⟨.sendBufferSize, BitVec.ofNat _ k, r, false, true, false⟩)
    (fun k => (bitAt (BitVec.ofNat (n + 1) N) k, false)) (length_shiftWord v) (fun k hk => by
      have hcnt : (BitVec.ofNat (n + 1) k).toNat = k := toNat_count (by omega)
      have hne : k ≠ n := by omega
      rw [getElem_shiftWord]
      simp [configCycles, next, wires, hcnt, hne, TapIn.bit, BitVec.ofNat_add]) (by
      simp [configCycles, wires, hcnt]) fun _ _ => ⟨rfl, rfl⟩
  refine ⟨ha.trans ?_, ?_, hp⟩
  · rw [getElem_shiftWord]
    simp [configCycles, next, wires, hcnt, TapIn.bit]
  · have hstart : (⟨.sendBufferSize, BitVec.ofNat _ 0, r, false, true, false⟩ : ConfigFsm (n + 1)) =
        ⟨.sendBufferSize, 0, r, false, true, false⟩ := rfl
    rw [hstart] at he
    rw [he, List.map_map]
    rfl

end Answer
end ConfigFsm
end Glip.Jtag
