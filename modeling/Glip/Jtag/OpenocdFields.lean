import Glip.Foundation.BitSerial

/-! The hexadecimal fields in which the host and OpenOCD exchange the bytes of a scan. -/
namespace Glip.Jtag
open Foundation

abbrev Byte := BitVec 8

/-- `"%02x"` -/
def hexByte (b : Byte) : List Char := [Nat.digitChar (b.toNat / 16), Nat.digitChar (b.toNat % 16)]

def hexDigit (c : Char) : Nat :=
  if '0' ≤ c ∧ c ≤ '9' then c.toNat - '0'.toNat
  else if 'a' ≤ c ∧ c ≤ 'f' then c.toNat - 'a'.toNat + 10
  else if 'A' ≤ c ∧ c ≤ 'F' then c.toNat - 'A'.toNat + 10
  else 0

def hexValue (cs : List Char) : Nat := cs.foldl (fun n c => n * 16 + hexDigit c) 0

def fieldsOf {α : Type} (field : List Byte → α) : List Byte → List α
  | a :: b :: c :: d :: bytes => field [a, b, c, d] :: fieldsOf field bytes
  | [] => []
  | bytes => [field bytes]

structure Field where
  size : Nat
  value : List Char
  deriving DecidableEq

def hexField (bytes : List Byte) : List Char := bytes.reverse.flatMap hexByte

def jtagDrscanWrite (req : List Byte) : List Field := fieldsOf (fun bytes => ⟨bytes.length * 8, hexField bytes⟩) req

def openocdShift (f : Field) : List Bool := natBits f.size (hexValue f.value)

def openocdAnswer (captured : List Byte) : List (List Char) := fieldsOf hexField captured

def hexstringToByte (hi lo : Char) : Byte := BitVec.ofNat 8 (hexValue [hi, lo])

def hexstringToBinarrayLe : List Char → List Byte
  | hi :: lo :: cs => hexstringToBinarrayLe cs ++ [hexstringToByte hi lo]
  | _ => []

def jtagDrscanRead (fields : List (List Char)) : List Byte := fields.flatMap hexstringToBinarrayLe

theorem hexDigit_digitChar {d : Nat} (h : d < 16) : hexDigit (Nat.digitChar d) = d := by
  have hall : ∀ d : Fin 16, hexDigit (Nat.digitChar d) = d := by decide
  exact hall ⟨d, h⟩

theorem hexValue_append (cs : List Char) (hi lo : Char) :
    hexValue (cs ++ [hi, lo]) = hexValue cs * 256 + hexValue [hi, lo] := by
  simp only [hexValue, List.foldl_append, List.foldl_cons, List.foldl_nil]
  omega

theorem hexValue_hexByte (b : Byte) : hexValue (hexByte b) = b.toNat := by
  have := b.isLt
  rw [hexByte, hexValue, List.foldl_cons, List.foldl_cons, List.foldl_nil, hexDigit_digitChar (by omega),
    hexDigit_digitChar (by omega)]
  omega

/-- The value of a field has its first byte in the least significant place. -/
theorem natBits_hexField (bytes : List Byte) : natBits (bytes.length * 8) (hexValue (hexField bytes)) = bytes.flatMap bitsOf := by
  induction bytes with
  | nil => rfl
  | cons b bytes ih =>
    have hfield : hexField (b :: bytes) = hexField bytes ++ hexByte b := by simp [hexField]
    have hvalue : hexValue (hexField (b :: bytes)) = 2 ^ 8 * hexValue (hexField bytes) + b.toNat := by
      have hbase : 2 ^ 8 = 256 := rfl
      rw [hfield, hexByte, hexValue_append, ← hexByte, hexValue_hexByte, Nat.mul_comm, hbase]
    rw [hvalue, List.length_cons, show (bytes.length + 1) * 8 = 8 + bytes.length * 8 by omega,
      natBits_mul_add _ _ b.isLt, ih, List.flatMap_cons, bitsOf_eq]

theorem fieldsOf_flatMap {α β : Type} {field : List Byte → α} {f : α → List β} {g : Byte → List β}
    (h : ∀ bytes, f (field bytes) = bytes.flatMap g) (bytes : List Byte) :
    (fieldsOf field bytes).flatMap f = bytes.flatMap g := by
  induction bytes using fieldsOf.induct with
  | case1 a b c d bytes ih =>
    rw [fieldsOf, List.flatMap_cons, h, ih, ← List.flatMap_append]
    rfl
  | case2 => rfl
  | case3 bytes hne hnil =>
    rw [fieldsOf]
    · rw [List.flatMap_singleton, h]
    · exact hne
    · exact hnil

/-- The bytes of a request are shifted in their order, each with its least significant bit
first. -/
theorem shift_jtagDrscanWrite (req : List Byte) : (jtagDrscanWrite req).flatMap openocdShift = req.flatMap bitsOf :=
  fieldsOf_flatMap natBits_hexField req

theorem hexstringToByte_hexByte (b : Byte) :
    hexstringToByte (Nat.digitChar (b.toNat / 16)) (Nat.digitChar (b.toNat % 16)) = b := by
  rw [hexstringToByte, ← hexByte, hexValue_hexByte, BitVec.ofNat_toNat, BitVec.setWidth_eq]

theorem hexstringToBinarrayLe_hexField (bytes : List Byte) : hexstringToBinarrayLe (hexField bytes) = bytes := by
  have hall (bs : List Byte) : hexstringToBinarrayLe (bs.flatMap hexByte) = bs.reverse := by
    induction bs with
    | nil => rfl
    | cons b bs ih =>
      rw [List.flatMap_cons, hexByte, List.cons_append, List.singleton_append, hexstringToBinarrayLe, ih,
        hexstringToByte_hexByte, List.reverse_cons]
  rw [hexField, hall, List.reverse_reverse]

/-- The host reads the captured bytes in their order. -/
theorem jtagDrscanRead_openocdAnswer (captured : List Byte) : jtagDrscanRead (openocdAnswer captured) = captured := by
  have := fieldsOf_flatMap (g := fun b => [b]) (fun bytes => (hexstringToBinarrayLe_hexField bytes).trans (by simp)) captured
  simpa [jtagDrscanRead, openocdAnswer] using this

end Glip.Jtag
