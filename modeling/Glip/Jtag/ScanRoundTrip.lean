import Glip.Jtag.ChunkedResponse
import Mathlib.Tactic.Ring

/-! The bytes of a request that comes back through a loop from TDI to TDO. -/
namespace Glip.Jtag

structure Cmdbuf where
  bufSize : Nat
  text : List Char

/-- `cmdbuf_append`, with its assertion. -/
def Cmdbuf.append (buf : Cmdbuf) (data : List Char) : Option Cmdbuf :=
  if buf.text.length + data.length ≤ buf.bufSize then some { buf with text := buf.text ++ data } else none

def oocdCmdstart : List Char := "drscan or1k.fifo ".toList

def fieldText (f : Field) : List Char := Nat.toDigits 10 f.size ++ [' ', '0', 'x'] ++ f.value ++ [' ']

def appendField (buf : Cmdbuf) (f : Field) : Option Cmdbuf := do
  let buf ← buf.append (Nat.toDigits 10 f.size ++ [' ', '0', 'x'])
  let buf ← buf.append f.value
  buf.append [' ']

/-- The command is sent, or is too long for OpenOCD, or an assertion fails. -/
inductive DrscanCommand where
  | sent (text : List Char)
  | overflow
  | fault
  deriving DecidableEq

def commandBuffer (req : List Byte) : Option Cmdbuf := do
  let buf ← (⟨1 * 1024 * 1024, []⟩ : Cmdbuf).append oocdCmdstart
  let buf ← (jtagDrscanWrite req).foldlM appendField buf
  buf.append [ctrlZ]

def jtagDrscanCommand (req : List Byte) : DrscanCommand :=
  match commandBuffer req with
  | none => .fault
  | some buf => if 4096 * 1024 < buf.text.length then .overflow else .sent buf.text

/-- A captured field is answered with its value, in hexadecimal and with its width. -/
structure EchoOf (f : Field) (answer : List Char) : Prop where
  width : answer.length * 4 = f.size
  digits : ∀ c ∈ answer, isHexDigit c
  value : hexValue answer = hexValue f.value

section Text

theorem Cmdbuf.append_eq {a b : Cmdbuf} {data : List Char} (h : a.append data = some b) :
    b = ⟨a.bufSize, a.text ++ data⟩ ∧ b.text.length ≤ b.bufSize := by
  unfold append at h
  split at h
  · rename_i hfits
    cases h
    exact ⟨rfl, by rwa [List.length_append]⟩
  · cases h

theorem appendField_eq {a b : Cmdbuf} {f : Field} (h : appendField a f = some b) :
    b = ⟨a.bufSize, a.text ++ fieldText f⟩ := by
  obtain ⟨c, hc, h⟩ := Option.bind_eq_some_iff.mp h
  obtain ⟨d, hd, h⟩ := Option.bind_eq_some_iff.mp h
  rw [(Cmdbuf.append_eq h).1, (Cmdbuf.append_eq hd).1, (Cmdbuf.append_eq hc).1]
  simp [fieldText]

theorem foldlM_appendField {a b : Cmdbuf} {fields : List Field} (h : fields.foldlM appendField a = some b) :
    b = ⟨a.bufSize, a.text ++ fields.flatMap fieldText⟩ := by
  induction fields generalizing a with
  | nil =>
    cases h
    simp
  | cons f fields ih =>
    rw [List.foldlM_cons] at h
    obtain ⟨c, hc, h⟩ := Option.bind_eq_some_iff.mp h
    rw [ih h, appendField_eq hc]
    simp

theorem commandBuffer_eq {req : List Byte} {buf : Cmdbuf} (h : commandBuffer req = some buf) :
    buf.text = oocdCmdstart ++ (jtagDrscanWrite req).flatMap fieldText ++ [ctrlZ] ∧ buf.text.length ≤ 1024 * 1024 := by
  unfold commandBuffer at h
  simp only [Option.bind_eq_bind, Option.bind_eq_some_iff] at h
  obtain ⟨c, hc, d, hd, h⟩ := h
  obtain ⟨heq, hlen⟩ := Cmdbuf.append_eq h
  have hd := foldlM_appendField hd
  have hc := (Cmdbuf.append_eq hc).1
  subst hd hc heq
  exact ⟨by simp, hlen⟩

/-- The text of a command, which fits the buffer it is put together in. -/
theorem jtagDrscanCommand_text {req : List Byte} {text : List Char} (h : jtagDrscanCommand req = .sent text) :
    text = oocdCmdstart ++ (jtagDrscanWrite req).flatMap fieldText ++ [ctrlZ] ∧ text.length ≤ 1024 * 1024 := by
  unfold jtagDrscanCommand at h
  cases hbuf : commandBuffer req with
  | none =>
    rw [hbuf] at h
    cases h
  | some buf =>
    simp only [hbuf] at h
    split at h
    · cases h
    · cases h
      exact commandBuffer_eq hbuf

/-- No command is too long for OpenOCD that fits the buffer. -/
theorem jtagDrscanCommand_ne_overflow (req : List Byte) : jtagDrscanCommand req ≠ .overflow := by
  unfold jtagDrscanCommand
  cases hbuf : commandBuffer req with
  | none => exact nofun
  | some buf =>
    have hlen := (commandBuffer_eq hbuf).2
    change (if 4096 * 1024 < buf.text.length then DrscanCommand.overflow else .sent buf.text) ≠ .overflow
    rw [if_neg (by omega)]
    exact nofun

end Text

section Digits

theorem hexDigit_lt (c : Char) : hexDigit c < 16 := by
  unfold hexDigit
  simp only [Char.le_def, UInt32.le_iff_toNat_le, Char.toNat]
  have h0 : ('0').val.toNat = 48 := rfl
  have h9 : ('9').val.toNat = 57 := rfl
  have ha : ('a').val.toNat = 97 := rfl
  have hf : ('f').val.toNat = 102 := rfl
  have hA : ('A').val.toNat = 65 := rfl
  have hF : ('F').val.toNat = 70 := rfl
  split_ifs <;> omega

theorem hexValue_cons (c : Char) (cs : List Char) : hexValue (c :: cs) = hexDigit c * 16 ^ cs.length + hexValue cs := by
  have hfold (n : Nat) (cs : List Char) : cs.foldl (fun n c => n * 16 + hexDigit c) n =
      n * 16 ^ cs.length + cs.foldl (fun n c => n * 16 + hexDigit c) 0 := by
    induction cs generalizing n with
    | nil => simp
    | cons c cs ih =>
      rw [List.foldl_cons, List.foldl_cons, ih, ih (0 * 16 + hexDigit c), List.length_cons, pow_succ]
      ring
  rw [hexValue, List.foldl_cons, hfold, Nat.zero_mul, Nat.zero_add, hexValue]

theorem hexValue_lt (cs : List Char) : hexValue cs < 16 ^ cs.length := by
  induction cs with
  | nil => decide
  | cons c cs ih =>
    calc hexValue (c :: cs) < hexDigit c * 16 ^ cs.length + 16 ^ cs.length := by
          rw [hexValue_cons]
          exact Nat.add_lt_add_left ih _
      _ = (hexDigit c + 1) * 16 ^ cs.length := (Nat.succ_mul _ _).symm
      _ ≤ 16 * 16 ^ cs.length := Nat.mul_le_mul_right _ (hexDigit_lt c)
      _ = 16 ^ (c :: cs).length := by rw [List.length_cons, pow_succ, Nat.mul_comm]

/-- The digits of a value of a given width. -/
theorem digits_eq {a b : List Char} (hlen : a.length = b.length) (h : hexValue a = hexValue b) :
    a.map hexDigit = b.map hexDigit := by
  induction a generalizing b with
  | nil =>
    cases b with
    | nil => rfl
    | cons d b => cases hlen
  | cons c a ih =>
    cases b with
    | nil => cases hlen
    | cons d b =>
      have hlen : a.length = b.length := Nat.succ.inj hlen
      have hva := hexValue_lt a
      have hvb := hexValue_lt b
      rw [hexValue_cons, hexValue_cons, hlen] at h
      rw [hlen] at hva
      have hpos : 0 < 16 ^ b.length := Nat.pow_pos (by decide)
      have hc := congrArg (· / 16 ^ b.length) h
      have hv := congrArg (· % 16 ^ b.length) h
      simp only [Nat.mul_comm _ (16 ^ b.length), Nat.mul_add_div hpos, Nat.div_eq_of_lt hva, Nat.div_eq_of_lt hvb,
        Nat.add_zero] at hc
      simp only [Nat.mul_comm _ (16 ^ b.length), Nat.mul_add_mod, Nat.mod_eq_of_lt hva, Nat.mod_eq_of_lt hvb] at hv
      rw [List.map_cons, List.map_cons, hc, ih hlen hv]

/-- The bytes of a field depend on its digits only, not on how they are written. -/
theorem hexstringToBinarrayLe_congr {a b : List Char} (h : a.map hexDigit = b.map hexDigit) :
    hexstringToBinarrayLe a = hexstringToBinarrayLe b := by
  induction a using hexstringToBinarrayLe.induct generalizing b with
  | case1 hi lo a ih =>
    rcases b with _ | ⟨hi', _ | ⟨lo', b⟩⟩
    · cases h
    · simp at h
    · simp only [List.map_cons, List.cons.injEq] at h
      obtain ⟨hhi, hlo, htail⟩ := h
      rw [hexstringToBinarrayLe, hexstringToBinarrayLe, ih htail, hexstringToByte, hexstringToByte]
      simp only [hexValue, List.foldl_cons, List.foldl_nil, hhi, hlo]
  | case2 a ha =>
    have hlen := congrArg List.length h
    rcases a with _ | ⟨_, _ | ⟨hi, lo⟩⟩ <;> rcases b with _ | ⟨_, _ | ⟨hi', lo'⟩⟩ <;> simp at hlen
    · rfl
    · simp [hexstringToBinarrayLe]
    · exact absurd rfl (ha _ _ _)

end Digits

theorem mem_fieldsOf {α : Type} {field : List Byte → α} {x : α} {bytes : List Byte} (h : x ∈ fieldsOf field bytes) :
    ∃ part, part ≠ [] ∧ x = field part := by
  induction bytes using fieldsOf.induct with
  | case1 a b c d bytes ih =>
    rcases List.mem_cons.mp h with rfl | h
    · exact ⟨[a, b, c, d], by simp, rfl⟩
    · exact ih h
  | case2 => cases h
  | case3 bytes hne hnil =>
    rw [fieldsOf] at h
    · exact ⟨bytes, fun hb => hnil hb, List.mem_singleton.mp h⟩
    · exact hne
    · exact hnil

theorem fieldsOf_ne_nil {α : Type} {field : List Byte → α} {bytes : List Byte} (h : bytes ≠ []) :
    fieldsOf field bytes ≠ [] := by
  fun_cases fieldsOf field bytes with
  | case1 => exact List.cons_ne_nil _ _
  | case2 => exact absurd rfl h
  | case3 => exact List.cons_ne_nil _ _

theorem length_hexField (bytes : List Byte) : (hexField bytes).length = 2 * bytes.length := by
  simp [hexField, hexByte, Nat.mul_comm]

/-- Each field of a request is the number of its bits and its bytes in hexadecimal. -/
theorem jtagDrscanWrite_field {req : List Byte} {f : Field} (h : f ∈ jtagDrscanWrite req) :
    ∃ part, part ≠ [] ∧ f = ⟨part.length * 8, hexField part⟩ := mem_fieldsOf h

structure SameBytes (f : Field) (answer : List Char) : Prop where
  length : answer.length = f.value.length
  bytes : hexstringToBinarrayLe answer = hexstringToBinarrayLe f.value
  whole : WholeBytes answer

theorem EchoOf.sameBytes {part : List Byte} {answer : List Char} (h : EchoOf ⟨part.length * 8, hexField part⟩ answer)
    (hpart : part ≠ []) : SameBytes ⟨part.length * 8, hexField part⟩ answer := by
  have hwidth := h.width
  have hpos := List.length_pos_of_ne_nil hpart
  simp only at hwidth
  have hlen : answer.length = (hexField part).length := by
    rw [length_hexField]
    omega
  refine ⟨hlen, hexstringToBinarrayLe_congr (digits_eq hlen h.value), ?_, by omega, h.digits⟩
  rintro rfl
  simp only [List.length_nil] at hwidth
  omega

theorem echo_sameBytes {req : List Byte} {answers : List (List Char)}
    (h : List.Forall₂ EchoOf (jtagDrscanWrite req) answers) : List.Forall₂ SameBytes (jtagDrscanWrite req) answers := by
  have hfields (f) (hf : f ∈ jtagDrscanWrite req) := jtagDrscanWrite_field hf
  generalize jtagDrscanWrite req = fields at h hfields
  induction h with
  | nil => exact .nil
  | @cons f answer fields answers hf _ ih =>
    obtain ⟨part, hpart, rfl⟩ := hfields f (.head _)
    exact .cons (hf.sameBytes hpart) (ih fun f hf => hfields f (.tail _ hf))

section Echo
variable {fields : List Field} {answers : List (List Char)} (h : List.Forall₂ SameBytes fields answers)
include h

theorem wholeBytes_of_same : ∀ answer ∈ answers, WholeBytes answer := by
  induction h with
  | nil => exact nofun
  | cons hf _ ih =>
    intro answer hmem
    rcases List.mem_cons.mp hmem with rfl | hmem
    · exact hf.whole
    · exact ih answer hmem

theorem bytes_of_same : jtagDrscanRead answers = fields.flatMap fun f => hexstringToBinarrayLe f.value := by
  induction h with
  | nil => rfl
  | cons hf _ ih =>
    rw [jtagDrscanRead] at ih ⊢
    rw [List.flatMap_cons, List.flatMap_cons, hf.bytes, ih]

theorem length_response_le : (response answers).length ≤ (fields.flatMap fieldText).length + 1 := by
  induction h with
  | nil => exact Nat.le_refl 1
  | cons hf _ ih =>
    have hlen := hf.length
    have hrest (rest : List (List Char)) : (if rest = [] then [ctrlZ] else ' ' :: response rest).length ≤ (response rest).length + 1 := by
      split <;> simp
    have hrest := hrest
    rw [DrscanRead.response_cons, List.length_append, List.flatMap_cons, List.length_append, fieldText]
    refine (Nat.add_le_add_left (hrest _) _).trans ?_
    simp only [List.length_append, List.length_cons, List.length_nil]
    omega

end Echo

/-- The bytes of a request come back from a loop: OpenOCD answers every field with its value, and
the reads of the answer end a field each. -/
theorem drscan_round_trip {req : List Byte} {text : List Char} (hne : req ≠ []) (hsent : jtagDrscanCommand req = .sent text)
    {answers : List (List Char)} (hecho : List.Forall₂ EchoOf (jtagDrscanWrite req) answers) (buf : Nat → Char)
    {replies : List Reply} (hdel : Delivers replies (response answers))
    (hfits : DrscanRead.Fits req.length (.init buf) replies)
    (hsep : ∀ r ∈ replies, ∃ cs, r = .chunk cs ∧ cs.any isSeparator = true) :
    DrscanRead.run req.length (.init buf) replies = .returned 0 (storesFrom 0 req) := by
  have hsame := echo_sameBytes hecho
  have hbytes : jtagDrscanRead answers = req := by
    rw [bytes_of_same hsame]
    refine (fieldsOf_flatMap (f := fun f : Field => hexstringToBinarrayLe f.value) (g := fun b => [b])
      (fun bytes => ?_) req).trans (by simp)
    rw [hexstringToBinarrayLe_hexField, List.flatMap_singleton']
  have hlen : (response answers).length ≤ 2 ^ 30 := by
    have hle := length_response_le hsame
    obtain ⟨rfl, htext⟩ := jtagDrscanCommand_text hsent
    rw [List.length_append, List.length_append, List.length_singleton] at htext
    omega
  have hanswers : answers ≠ [] := by
    rintro rfl
    exact fieldsOf_ne_nil hne (List.forall₂_nil_right_iff.mp hecho)
  have hsteady (seen : Bool) : Steady seen replies := by
    clear hdel hfits
    induction replies generalizing seen with
    | nil => trivial
    | cons r replies ih =>
      obtain ⟨cs, rfl, hcs⟩ := hsep r (.head _)
      exact ⟨fun _ => hcs, ih (fun r hr => hsep r (.tail _ hr)) _⟩
  rw [← hbytes] at hfits ⊢
  exact drscanRead_steady hanswers (wholeBytes_of_same hsame) hlen buf hdel hfits (hsteady false)

/-- A last field of one byte, answered in capitals. -/
theorem drscan_round_trip_five :
    DrscanRead.run 5 (.init fun _ => ' ') [.chunk ['0', '4', '0', '3', '0', '2', 'A', 'B', ' ', '0'], .chunk ['5', ctrlZ]] =
      .returned 0 (storesFrom 0 [0xab, 2, 3, 4, 5]) := by
  have hecho : List.Forall₂ EchoOf (jtagDrscanWrite [0xab, 2, 3, 4, 5])
      [['0', '4', '0', '3', '0', '2', 'A', 'B'], ['0', '5']] :=
    have hfirst : WholeBytes ['0', '4', '0', '3', '0', '2', 'A', 'B'] := by decide
    have hlast : WholeBytes ['0', '5'] := by decide
    .cons ⟨rfl, hfirst.digits, by decide⟩ (.cons ⟨rfl, hlast.digits, by decide⟩ .nil)
  have hdel : Delivers [.chunk ['0', '4', '0', '3', '0', '2', 'A', 'B', ' ', '0'], .chunk ['5', ctrlZ]]
      (['0', '4', '0', '3', '0', '2', 'A', 'B', ' ', '0'] ++ (['5', ctrlZ] ++ [])) :=
    .chunk (by decide) (.chunk (by decide) .nil)
  have hsent : jtagDrscanCommand [0xab, 2, 3, 4, 5] = .sent (oocdCmdstart ++ "32 0x040302ab 8 0x05 \x1a".toList) := by
    decide +kernel
  exact drscan_round_trip (by decide) hsent hecho (fun _ => ' ') hdel (by decide +kernel) (by simp [isSeparator, ctrlZ])

end Glip.Jtag
