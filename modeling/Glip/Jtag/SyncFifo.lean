import Mathlib.Data.List.Basic
import Mathlib.Tactic.Common

/-! glip_jtag_fifo.v, a FIFO of shift registers with a one-hot write pointer. -/
namespace Glip.Jtag
variable {length : Nat} {α : Type}

/-- The registers of `glip_jtag_fifo`; `fifoData` counts below `LENGTH`. -/
structure SyncFifo (length : Nat) (α : Type) where
  fifoData : Nat → α
  fifoWritePtr : BitVec (length + 1)

namespace SyncFifo
variable (s : SyncFifo length α) (inValid outReady : Bool)

def outFlit : α := s.fifoData 0

def outValid : Bool := !s.fifoWritePtr.getLsbD 0

def inReady : Bool := !s.fifoWritePtr.getLsbD length

def pop : Bool := s.outValid && outReady

def push : Bool := inValid && s.inReady

def next (rst : Bool) (inFlit : α) : SyncFifo length α where
  fifoData i :=
    if length ≤ i then s.fifoData i
    else if s.pop outReady then
      if s.push inValid && s.fifoWritePtr.getLsbD (i + 1) then inFlit
      else if i < length - 1 then s.fifoData (i + 1)
      else s.fifoData i
    else if s.push inValid && s.fifoWritePtr.getLsbD i then inFlit
    else s.fifoData i
  fifoWritePtr :=
    if rst then 1
    else if s.push inValid && !s.pop outReady then s.fifoWritePtr <<< 1
    else if !s.push inValid && s.pop outReady then s.fifoWritePtr >>> 1
    else s.fifoWritePtr

def gives : List α := if s.pop outReady then [s.outFlit] else []

structure Holds (s : SyncFifo length α) (q : List α) : Prop where
  ptr : ∀ i, s.fifoWritePtr.getLsbD i = decide (i = q.length)
  length_le : q.length ≤ length
  data : ∀ i (h : i < q.length), s.fifoData i = q[i]

theorem holds_reset (inFlit : α) : (s.next inValid outReady true inFlit).Holds [] := by
  refine ⟨fun i => ?_, Nat.zero_le _, nofun⟩
  simp [next, BitVec.getLsbD_one]

variable {s}

section Holds
variable {q : List α} (h : s.Holds q)
include h

theorem Holds.outValid_eq : s.outValid = decide (q ≠ []) := by
  rw [outValid, h.ptr]
  cases q <;> simp

theorem Holds.inReady_eq : s.inReady = decide (q.length < length) := by
  have := h.length_le
  rw [inReady, h.ptr, Bool.eq_iff_iff]
  simp only [Bool.not_eq_true', decide_eq_false_iff_not, decide_eq_true_eq]
  omega

theorem Holds.ptr_push (hroom : q.length < length) (i : Nat) :
    (s.fifoWritePtr <<< 1).getLsbD i = decide (i = q.length + 1) := by
  rw [BitVec.getLsbD_shiftLeft, h.ptr, Bool.eq_iff_iff]
  simp only [Bool.and_eq_true, Bool.not_eq_true', decide_eq_false_iff_not, decide_eq_true_eq]
  omega

end Holds

theorem Holds.gives_cons {word : α} {q : List α} {outReady : Bool} (h : s.Holds (word :: q)) (hpop : s.pop outReady = true) :
    s.gives outReady = [word] := by
  rw [gives, if_pos hpop, outFlit, h.data 0 (Nat.succ_pos _)]
  rfl

/-- A cycle takes the oldest word out, puts the new one in, or does both. -/
theorem Holds.next {q : List α} (h : s.Holds q) (inValid outReady : Bool) (inFlit : α) :
    ∃ q', (s.next inValid outReady false inFlit).Holds q' ∧
      s.gives outReady ++ q' = q ++ if s.push inValid then [inFlit] else [] := by
  have hle := h.length_le
  have hroom (hpush : s.push inValid = true) : q.length < length := by
    simpa [h.inReady_eq] using (Bool.and_eq_true_iff.mp hpush).2
  have htaken (hpop : s.pop outReady = true) : ∃ word q', q = word :: q' := by
    apply List.exists_cons_of_ne_nil
    simpa [h.outValid_eq] using (Bool.and_eq_true_iff.mp hpop).1
  cases hpush : s.push inValid <;> cases hpop : s.pop outReady
  · refine ⟨q, ⟨fun i => ?_, hle, fun i hi => ?_⟩, ?_⟩
    · simp [SyncFifo.next, hpush, hpop, h.ptr]
    · simp [SyncFifo.next, hpush, hpop, h.data i hi]
    · simp [gives, hpop]
  · obtain ⟨word, q, rfl⟩ := htaken hpop
    rw [List.length_cons] at hle
    refine ⟨q, ⟨fun i => ?_, by omega, fun i hi => ?_⟩, ?_⟩
    · have hptr : s.fifoWritePtr.getLsbD (1 + i) = decide (i = q.length) := by
        rw [h.ptr, Nat.add_comm 1, List.length_cons]
        simp only [Nat.add_right_cancel_iff]
      simpa [SyncFifo.next, hpush, hpop] using hptr
    · have hdata := h.data (i + 1) (Nat.succ_lt_succ hi)
      have hin : i < length - 1 := by omega
      have hnot : ¬length ≤ i := by omega
      simp [SyncFifo.next, hpush, hpop, hin, hnot, hdata]
    · simp [h.gives_cons hpop]
  · have hlt := hroom hpush
    refine ⟨q ++ [inFlit], ⟨fun i => ?_, by simp; omega, fun i hi => ?_⟩, ?_⟩
    · simpa [SyncFifo.next, hpush, hpop, -BitVec.getLsbD_shiftLeft] using h.ptr_push hlt i
    · rw [List.length_append, List.length_singleton] at hi
      have hnot : ¬length ≤ i := by omega
      by_cases hlast : i = q.length
      · subst hlast
        simp [SyncFifo.next, hpush, hpop, h.ptr, hnot]
      · have hin : i < q.length := by omega
        simp [SyncFifo.next, hpush, hpop, h.ptr, hnot, hlast, h.data i hin, List.getElem_append_left hin]
    · simp [gives, hpop]
  · have hlt := hroom hpush
    obtain ⟨word, q, rfl⟩ := htaken hpop
    rw [List.length_cons] at hle hlt
    refine ⟨q ++ [inFlit], ⟨fun i => ?_, by simpa using hle, fun i hi => ?_⟩, ?_⟩
    · simpa [SyncFifo.next, hpush, hpop] using h.ptr i
    · rw [List.length_append, List.length_singleton] at hi
      have hnot : ¬length ≤ i := by omega
      by_cases hlast : i = q.length
      · subst hlast
        simp [SyncFifo.next, hpush, hpop, h.ptr, hnot]
      · have hin : i < q.length := by omega
        have hshift : i < length - 1 := by omega
        have hdata := h.data (i + 1) (Nat.succ_lt_succ hin)
        simp [SyncFifo.next, hpush, hpop, h.ptr, hnot, hlast, hshift, hdata, List.getElem_append_left hin]
    · simp [h.gives_cons hpop]

end SyncFifo
end Glip.Jtag
