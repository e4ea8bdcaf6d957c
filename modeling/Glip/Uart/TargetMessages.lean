import Glip.Uart.ControlEgress

/-! The messages that the target sends to the host, as bytes, and a decoder for them. -/
namespace Glip.Uart
open Foundation

inductive TargetMessage where
  | word (b : UInt8)
  | credit (val : Fin (2 ^ 15))

def TargetMessage.bytes : TargetMessage → List UInt8
  | .word b => wordBytes b
  | .credit val => [marker, creditHigh val, creditLow val]

/-- The tranche that `update_debt` assembles from the two bytes of a credit. -/
def debtTranche (first second : UInt8) : Nat := ((first.toNat >>> 1) &&& 0x7f) <<< 8 ||| second.toNat

inductive HostEvent where
  | word (b : UInt8)
  | credit (val : Nat)
  deriving DecidableEq

def TargetMessage.event : TargetMessage → HostEvent
  | .word b => .word b
  | .credit val => .credit val

inductive Framing where
  | start
  | marked
  | low (first : UInt8)
  deriving DecidableEq

def hostDecoder : Transducer Framing UInt8 HostEvent where
  next
    | .start, b => if b = marker then .marked else .start
    | .marked, b => if b = marker then .start else .low b
    | .low _, _ => .start
  emit
    | .start, b => if b = marker then [] else [.word b]
    | .marked, b => if b = marker then [.word b] else []
    | .low first, b => [.credit (debtTranche first b)]

theorem creditHigh_ne_marker (credit : Nat) : creditHigh credit ≠ marker := by
  intro h
  have := congrArg UInt8.toNat h
  simp only [creditHigh, concat, UInt8.toNat_ofNat', marker] at this
  have hm : (0xfe : UInt8).toNat = 254 := rfl
  omega

theorem debtTranche_credit {credit : Nat} (h : credit < 2 ^ 15) :
    debtTranche (creditHigh credit) (creditLow credit) = credit := by
  rw [debtTranche, and_7f, shiftLeft_or_byte, Nat.shiftRight_eq_div_pow]
  simp only [creditHigh, creditLow, concat, slice, UInt8.toNat_ofNat']
  omega

theorem decode_word_bytes (b : UInt8) :
    hostDecoder.after .start (wordBytes b) = .start ∧ hostDecoder.emitted .start (wordBytes b) = [.word b] := by
  by_cases hb : b = marker <;> simp [wordBytes, hostDecoder, hb]

theorem decode_credit_bytes {first : UInt8} (hf : first ≠ marker) (second : UInt8) :
    hostDecoder.after .start [marker, first, second] = .start ∧
      hostDecoder.emitted .start [marker, first, second] = [.credit (debtTranche first second)] := by
  simp [hostDecoder, hf]

theorem decode_target_messages (ms : List TargetMessage) :
    hostDecoder.after .start (ms.flatMap TargetMessage.bytes) = .start ∧
      hostDecoder.emitted .start (ms.flatMap TargetMessage.bytes) = ms.map TargetMessage.event := by
  refine Transducer.decodes (P := (· = Framing.start)) ?_ ms Framing.start rfl
  rintro x s rfl
  cases x with
  | word b => exact decode_word_bytes b
  | credit val =>
    have h := decode_credit_bytes (creditHigh_ne_marker val) (creditLow val)
    rw [debtTranche_credit val.isLt] at h
    exact h

def words : List HostEvent → List UInt8
  | [] => []
  | .word b :: es => b :: words es
  | .credit _ :: es => words es

def credits : List HostEvent → Nat
  | [] => 0
  | .word _ :: es => credits es
  | .credit val :: es => val + credits es

@[simp] theorem words_append (a b : List HostEvent) : words (a ++ b) = words a ++ words b := by
  induction a with
  | nil => rfl
  | cons e a ih => cases e <;> simp [words, ih]

@[simp] theorem credits_append (a b : List HostEvent) : credits (a ++ b) = credits a + credits b := by
  induction a with
  | nil => simp [credits]
  | cons e a ih => cases e <;> simp [credits, ih, Nat.add_assoc]

def wordsOf (bs : List UInt8) : List UInt8 := words (hostDecoder.emitted .start bs)
def creditsOf (bs : List UInt8) : Nat := credits (hostDecoder.emitted .start bs)

theorem creditsOf_le_append (a b : List UInt8) : creditsOf a ≤ creditsOf (a ++ b) := by
  rw [creditsOf, creditsOf, Transducer.emitted_append, credits_append]
  exact Nat.le_add_right _ _

/-- A credit message has three bytes. -/
theorem creditsOf_short {bs : List UInt8} (h : bs.length < 3) : creditsOf bs = 0 := by
  match bs, h with
  | [], _ => rfl
  | [a], _ => by_cases ha : a = marker <;> simp [creditsOf, hostDecoder, credits, ha]
  | [a, b], _ =>
    by_cases ha : a = marker <;> by_cases hb : b = marker <;> simp [creditsOf, hostDecoder, credits, ha, hb]

def Whole (bs : List UInt8) : Prop := hostDecoder.after .start bs = .start

section Whole
variable {a : List UInt8}

theorem Whole.after_append (ha : Whole a) (b : List UInt8) :
    hostDecoder.after .start (a ++ b) = hostDecoder.after .start b := by
  rw [Transducer.after_append, ha]

theorem Whole.append_iff (ha : Whole a) {b : List UInt8} : Whole (a ++ b) ↔ Whole b := by
  rw [Whole, ha.after_append, Whole]

theorem Whole.wordsOf_append (ha : Whole a) (b : List UInt8) : wordsOf (a ++ b) = wordsOf a ++ wordsOf b := by
  rw [wordsOf, Transducer.emitted_append, ha, words_append]
  rfl

theorem Whole.creditsOf_append (ha : Whole a) (b : List UInt8) :
    creditsOf (a ++ b) = creditsOf a + creditsOf b := by
  rw [creditsOf, Transducer.emitted_append, ha, credits_append]
  rfl

theorem whole_nil : Whole [] := rfl

theorem whole_word (b : UInt8) : Whole (wordBytes b) := (decode_word_bytes b).1

theorem whole_credit {first : UInt8} (hf : first ≠ marker) (second : UInt8) : Whole [marker, first, second] :=
  (decode_credit_bytes hf second).1

@[simp] theorem wordsOf_word (b : UInt8) : wordsOf (wordBytes b) = [b] := by
  rw [wordsOf, (decode_word_bytes b).2]
  rfl

@[simp] theorem creditsOf_word (b : UInt8) : creditsOf (wordBytes b) = 0 := by
  rw [creditsOf, (decode_word_bytes b).2]
  rfl

theorem wordsOf_credit {first : UInt8} (hf : first ≠ marker) (second : UInt8) :
    wordsOf [marker, first, second] = [] := by
  rw [wordsOf, (decode_credit_bytes hf second).2]
  rfl

theorem creditsOf_credit {first : UInt8} (hf : first ≠ marker) (second : UInt8) :
    creditsOf [marker, first, second] = debtTranche first second := by
  rw [creditsOf, (decode_credit_bytes hf second).2]
  rfl

end Whole
end Glip.Uart
