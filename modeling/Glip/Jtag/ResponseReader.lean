import Glip.Foundation.MachineInteger
import Glip.Jtag.OpenocdFields
import Mathlib.Data.List.Range

/-! The loop of jtag_drscan_read, which takes the fields of a response out of what the
socket delivers piece by piece. -/
namespace Glip.Jtag
open Foundation

def ctrlZ : Char := Char.ofNat 0x1a

def isSeparator (c : Char) : Bool := c == ' ' || c == ctrlZ

inductive Reply where
  | chunk (cs : List Char)
  | eagain
  | error
  | closed

def Reply.length : Reply → Nat
  | chunk cs => cs.length
  | _ => 0

def growBuf (currentSize : Nat) : Nat :=
  if currentSize < 32 * 1024 then sizeMul currentSize 2 else sizeAdd currentSize (32 * 1024)

/-- The variables of `jtag_drscan_read`, and the bytes stored in `resp` so far, each with
the index at which it is stored. -/
structure DrscanRead where
  buf : Nat → Char
  bufPos : Nat
  bufSize : Nat
  fieldStart : Nat
  fieldEnd : Nat
  respPos : Nat
  stores : List (Nat × Byte)

/-- The call is over, or it waits for more. A failed assertion or an access outside a buffer
ends it as well. -/
inductive DrscanOutcome where
  | returned (rv : Int) (stores : List (Nat × Byte))
  | fault
  | waiting
  deriving DecidableEq

def storesFrom : Nat → List Byte → List (Nat × Byte)
  | _, [] => []
  | k, b :: bytes => (k, b) :: storesFrom (k + 1) bytes

namespace DrscanRead
variable (size : Nat) (s : DrscanRead)

/-- The malloc'ed buffer may hold anything. -/
def init (buf : Nat → Char) : DrscanRead := ⟨buf, 0, 2048, 0, 0, 0, []⟩

def text (start n : Nat) : List Char := (List.range n).map fun j => s.buf (start + j)

def grow : DrscanRead := if s.bufSize ≤ s.bufPos then { s with bufSize := growBuf s.bufSize } else s

def room : Nat := sizeSub s.bufSize s.bufPos

def put (cs : List Char) : DrscanRead :=
  { s with buf := fun j => if s.bufPos ≤ j then cs.getD (j - s.bufPos) (s.buf j) else s.buf j }

def endField (p : Nat) : Option DrscanRead :=
  let fieldSizeChars := signedOf 32 (unsignedOf 32 (p - s.fieldStart))
  let respPos := unsignedOf 32 (s.respPos + fieldSizeChars.tdiv 2)
  if size < respPos ∨ fieldSizeChars % 2 ≠ 0 then none
  else if 0 < fieldSizeChars ∧ (s.bufSize : Int) < s.fieldStart + fieldSizeChars then none
  else some
    { s with
      fieldStart := unsignedOf 32 (p + 1)
      fieldEnd := p
      respPos := respPos
      stores := s.stores ++
        storesFrom s.respPos (hexstringToBinarrayLe (s.text s.fieldStart fieldSizeChars.toNat)) }

def extractChar (c : Char) (p : Nat) : DrscanOutcome ⊕ DrscanRead :=
  if isSeparator c then
    match s.endField size p with
    | none => .inl .fault
    | some s => if c = ctrlZ then .inl (.returned 0 s.stores) else .inr s
  else .inr s

def extract : List Char → Nat → DrscanRead → DrscanOutcome ⊕ DrscanRead
  | [], _, s => .inr s
  | c :: cs, i, s =>
    match s.extractChar size c (unsignedOf 32 (s.bufPos + i)) with
    | .inl outcome => .inl outcome
    | .inr s => extract cs (i + 1) s

def shift (n : Int) : DrscanRead :=
  { s with
    buf := fun j => if j < sizeSub s.bufSize s.fieldEnd then s.buf (s.fieldEnd + j) else s.buf j
    bufPos := unsignedOf 32 (s.bufPos + n - s.fieldEnd)
    fieldStart := unsignedOf 32 (s.fieldStart - s.fieldEnd) }

def next (r : Reply) : DrscanOutcome ⊕ DrscanRead :=
  let s := s.grow
  if s.bufSize < s.bufPos then .inl .fault
  else match r with
    | .closed | .error => .inl (.returned (-1) s.stores)
    | .eagain => .inr (s.shift (-1))
    | .chunk cs =>
      match extract size cs 0 (s.put cs) with
      | .inl outcome => .inl outcome
      | .inr s => .inr (s.shift cs.length)

def run : DrscanRead → List Reply → DrscanOutcome
  | _, [] => .waiting
  | s, r :: replies =>
    match s.next size r with
    | .inl outcome => outcome
    | .inr s => run s replies

def Fits : DrscanRead → List Reply → Prop
  | _, [] => True
  | s, r :: replies =>
    r.length ≤ s.grow.room ∧
      match s.next size r with
      | .inl _ => True
      | .inr s => Fits s replies

instance : (s : DrscanRead) → (replies : List Reply) → Decidable (Fits size s replies)
  | _, [] => instDecidableTrue
  | s, r :: replies =>
    have : Decidable (match s.next size r with | .inl _ => True | .inr s => Fits size s replies) :=
      match s.next size r with
      | .inl _ => instDecidableTrue
      | .inr s => instDecidableFits s replies
    inferInstanceAs (Decidable (_ ∧ _))

end DrscanRead

def response : List (List Char) → List Char
  | [] => [ctrlZ]
  | [field] => field ++ [ctrlZ]
  | field :: fields => field ++ ' ' :: response fields

def isHexDigit (c : Char) : Prop := '0' ≤ c ∧ c ≤ '9' ∨ 'a' ≤ c ∧ c ≤ 'f' ∨ 'A' ≤ c ∧ c ≤ 'F'

instance : DecidablePred isHexDigit := fun _ => inferInstanceAs (Decidable (_ ∨ _ ∨ _))

structure WholeBytes (field : List Char) : Prop where
  nonempty : field ≠ []
  even : field.length % 2 = 0
  digits : ∀ c ∈ field, isHexDigit c

instance (field : List Char) : Decidable (WholeBytes field) :=
  decidable_of_iff (field ≠ [] ∧ field.length % 2 = 0 ∧ field.all fun c => decide (isHexDigit c))
    ⟨fun h => ⟨h.1, h.2.1, by simpa using h.2.2⟩, fun h => ⟨h.nonempty, h.even, by simpa using h.digits⟩⟩

/-- Every read delivers something, and ends a field if an earlier one has. -/
def Steady : Bool → List Reply → Prop
  | _, [] => True
  | seen, .chunk cs :: replies => (seen = true → cs.any isSeparator) ∧ Steady (seen || cs.any isSeparator) replies
  | _, _ :: _ => False

inductive Delivers : List Reply → List Char → Prop
  | nil : Delivers [] []
  | eagain {replies : List Reply} {rest : List Char} (more : rest ≠ []) (next : Delivers replies rest) :
      Delivers (.eagain :: replies) rest
  | chunk {replies : List Reply} {cs rest : List Char} (some : cs ≠ []) (next : Delivers replies rest) :
      Delivers (.chunk cs :: replies) (cs ++ rest)

end Glip.Jtag
