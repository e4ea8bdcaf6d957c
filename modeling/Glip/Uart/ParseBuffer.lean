import Glip.Uart.TargetMessages
import Mathlib.Data.List.Range
import Mathlib.Logic.Function.Basic

/-! The loop of `parse_buffer` in backend_uart.c, up to what it does next with the
context or the port, and how that splits off the bytes it has not dealt with. -/
namespace Glip.Uart
open Foundation

inductive ParsePc where
  /-- at the condition of the loop -/
  | loop (i : Nat)
  /-- the last byte of a credit has been read into `buffer[0]` -/
  | lowByte (i : Nat)
  /-- the wait for credit is over -/
  | granted (i : Nat)
  /-- the byte after the marker has been read into `buffer[0]` -/
  | check (i : Nat)
  /-- the last byte of a credit has been read into `buffer[1]` -/
  | last (i : Nat)

structure Parse where
  buffer : Nat → UInt8
  size : Nat
  pc : ParsePc

/-- What it does next: return, store a word, call `update_debt`, read one more byte,
or run the loop that waits for a credit of two. -/
inductive ParseOp where
  | finished
  | word (b : UInt8) (next : Parse)
  | debt (first second : UInt8) (next : Parse)
  | read (next : UInt8 → Parse)
  | wait (next : Parse)

namespace Parse

def store (p : Parse) (j : Nat) (b : UInt8) (pc : ParsePc) : Parse :=
  { p with buffer := Function.update p.buffer j b, pc := pc }

def op (p : Parse) : ParseOp :=
  match p.pc with
  | .loop i =>
    if i < p.size then
      if p.buffer i = marker then
        if i + 1 < p.size then
          if p.buffer (i + 1) = marker then .word (p.buffer i) { p with pc := .loop (i + 2) }
          else if i + 2 < p.size then
            .debt (p.buffer (i + 1)) (p.buffer (i + 2)) { p with pc := .loop (i + 3) }
          else .read fun b => p.store 0 b (.lowByte i)
        else .wait { p with pc := .granted i }
      else .word (p.buffer i) { p with pc := .loop (i + 1) }
    else .finished
  | .lowByte i => .debt (p.buffer (i + 1)) (p.buffer 0) { p with pc := .loop (i + 2) }
  | .granted i => .read fun b => p.store 0 b (.check i)
  | .check i =>
    if p.buffer 0 = marker then .word (p.buffer 0) { p with pc := .loop (i + 1) }
    else .read fun b => p.store 1 b (.last i)
  | .last i => .debt (p.buffer 0) (p.buffer 1) { p with pc := .loop (i + 1) }

def call (buffer : Nat → UInt8) (chunk : List UInt8) : Parse :=
  ⟨fun j => chunk.getD j (buffer j), chunk.length, .loop 0⟩

def unread (buffer : Nat → UInt8) (i size : Nat) : List UInt8 := (List.range' i (size - i)).map buffer

def rest (p : Parse) : List UInt8 :=
  match p.pc with
  | .loop i => unread p.buffer i p.size
  | .lowByte i => [marker, p.buffer (i + 1), p.buffer 0]
  | .granted _ => [marker]
  | .check _ => [marker, p.buffer 0]
  | .last _ => [marker, p.buffer 0, p.buffer 1]

def atLoop (p : Parse) : Bool := match p.pc with
  | .loop _ => true
  | _ => false

/-- Once the begin of the buffer is used again, nothing else in it is needed. -/
def Ok (p : Parse) : Prop :=
  match p.pc with
  | .loop _ => True
  | .lowByte i => i + 2 = p.size ∧ p.buffer (i + 1) ≠ marker
  | .granted i | .check i => i + 1 = p.size
  | .last i => i + 1 = p.size ∧ p.buffer 0 ≠ marker

end Parse

/-- An operation takes a whole message off the bytes, or waits for the bytes that
complete the message they have begun. -/
def ParseOp.Takes (p : Parse) : ParseOp → Prop
  | finished => p.rest = []
  | word b next => next.Ok ∧ next.atLoop = true ∧ p.rest = wordBytes b ++ next.rest
  | debt first second next => next.Ok ∧ next.atLoop = true ∧
      first ≠ marker ∧ p.rest = marker :: first :: second :: next.rest
  | read next => (p.rest = [marker] ∧ p.atLoop = false ∨ ∃ first, first ≠ marker ∧ p.rest = [marker, first]) ∧
      ∀ b, (next b).Ok ∧ (next b).atLoop = false ∧ (next b).rest = p.rest ++ [b]
  | wait next => p.atLoop = true ∧ p.rest = [marker] ∧ next.Ok ∧ next.atLoop = false ∧ next.rest = p.rest

namespace Parse
variable {buffer : Nat → UInt8} {i size : Nat}

private theorem unread_cons (h : i < size) : unread buffer i size = buffer i :: unread buffer (i + 1) size := by
  obtain ⟨n, hn⟩ : ∃ n, size - i = n + 1 := ⟨size - i - 1, by omega⟩
  rw [unread, hn, List.range'_succ, List.map_cons, unread, show size - (i + 1) = n by omega]

private theorem unread_nil (h : size ≤ i) : unread buffer i size = [] := by
  rw [unread, Nat.sub_eq_zero_of_le h]
  rfl

theorem rest_call (buffer : Nat → UInt8) (chunk : List UInt8) : (call buffer chunk).rest = chunk := by
  refine List.ext_getElem (by simp [rest, call, unread]) fun j h₁ h₂ => ?_
  simp [rest, call, unread, h₂]

theorem ok_call (buffer : Nat → UInt8) (chunk : List UInt8) : (call buffer chunk).Ok := trivial

private theorem loop_takes (p : Parse) (i : Nat) (hpc : p.pc = .loop i) : p.op.Takes p := by
  have hloop : p.atLoop = true := by simp [atLoop, hpc]
  have hrest : p.rest = unread p.buffer i p.size := by rw [rest, hpc]
  simp only [op, hpc]
  split
  case isFalse hi => exact hrest.trans (unread_nil (by omega))
  case isTrue hi =>
    rw [unread_cons hi] at hrest
    split
    case isFalse hb => exact ⟨trivial, rfl, by rw [hrest]; simp [wordBytes, hb, rest]⟩
    case isTrue hb =>
      rw [hb] at hrest
      split
      case isFalse hi₁ =>
        rw [unread_nil (by omega)] at hrest
        exact ⟨hloop, hrest, by simp only [Ok]; omega, rfl, hrest.symm⟩
      case isTrue hi₁ =>
        rw [unread_cons hi₁] at hrest
        split
        case isTrue hb₁ => exact ⟨trivial, rfl, by rw [hrest, hb₁]; simp [wordBytes, hb, rest]⟩
        case isFalse hb₁ =>
          split
          case isTrue hi₂ =>
            rw [unread_cons hi₂] at hrest
            exact ⟨trivial, rfl, hb₁, hrest⟩
          case isFalse hi₂ =>
            rw [unread_nil (by omega)] at hrest
            refine ⟨.inr ⟨_, hb₁, hrest⟩, fun b => ⟨⟨?_, ?_⟩, rfl, ?_⟩⟩
            · simp only [store]
              omega
            · simpa [store] using hb₁
            · rw [hrest]
              simp [rest, store]

/-- What every step of the loop does with the bytes. -/
theorem op_takes (p : Parse) (h : p.Ok) : p.op.Takes p := by
  cases hpc : p.pc with
  | loop i => exact loop_takes p i hpc
  | lowByte i =>
    simp only [Ok, hpc] at h
    simp only [op, hpc]
    exact ⟨trivial, rfl, h.2, by simp [rest, hpc, unread_nil (Nat.le_of_eq h.1.symm)]⟩
  | granted i =>
    simp only [Ok, hpc] at h
    simp only [op, hpc]
    refine ⟨.inl ⟨by rw [rest, hpc], by simp [atLoop, hpc]⟩, fun b => ⟨?_, rfl, ?_⟩⟩
    · simpa [Ok, store] using h
    · simp [rest, hpc, store]
  | check i =>
    simp only [Ok, hpc] at h
    simp only [op, hpc]
    split
    case isTrue hb =>
      exact ⟨trivial, rfl, by simp [wordBytes, hb, rest, hpc, unread_nil (Nat.le_of_eq h.symm)]⟩
    case isFalse hb =>
      refine ⟨.inr ⟨_, hb, by rw [rest, hpc]⟩, fun b => ⟨⟨h, ?_⟩, rfl, ?_⟩⟩
      · simpa [store] using hb
      · simp [rest, hpc, store]
  | last i =>
    simp only [Ok, hpc] at h
    simp only [op, hpc]
    exact ⟨trivial, rfl, h.2, by simp [rest, hpc, unread_nil (Nat.le_of_eq h.1.symm)]⟩

theorem takes {p : Parse} {o : ParseOp} (h : p.Ok) (hop : p.op = o) : o.Takes p := hop ▸ p.op_takes h

theorem atLoop_call (buffer : Nat → UInt8) (chunk : List UInt8) : (call buffer chunk).atLoop = true := rfl

end Parse
end Glip.Uart
