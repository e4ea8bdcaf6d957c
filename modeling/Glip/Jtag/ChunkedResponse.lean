import Glip.Jtag.ResponseReader
import Mathlib.Data.List.Count

/-! When the bytes of a response do not depend on how it is cut into reads. -/
namespace Glip.Jtag
open Foundation

theorem storesFrom_append (k : Nat) (a b : List Byte) :
    storesFrom k (a ++ b) = storesFrom k a ++ storesFrom (k + a.length) b := by
  induction a generalizing k with
  | nil => rfl
  | cons byte a ih => rw [List.cons_append, storesFrom, ih, storesFrom, List.length_cons, Nat.add_right_comm]; rfl

theorem length_storesFrom (k : Nat) (bytes : List Byte) : (storesFrom k bytes).length = bytes.length := by
  induction bytes generalizing k with
  | nil => rfl
  | cons byte bytes ih => rw [storesFrom, List.length_cons, ih, List.length_cons]

theorem length_hexstringToBinarrayLe (cs : List Char) : (hexstringToBinarrayLe cs).length = cs.length / 2 := by
  induction cs using hexstringToBinarrayLe.induct with
  | case1 hi lo cs ih =>
    rw [hexstringToBinarrayLe, List.length_append, ih, List.length_singleton, List.length_cons, List.length_cons]
    omega
  | case2 cs h =>
    obtain _ | ⟨hi, _ | ⟨lo, cs⟩⟩ := cs
    · rfl
    · simp [hexstringToBinarrayLe]
    · exact absurd rfl (h hi lo cs)

theorem not_isSeparator {c : Char} (h : isHexDigit c) : isSeparator c = false := by
  rw [isSeparator, Bool.or_eq_false_iff, beq_eq_false_iff_ne, beq_eq_false_iff_ne]
  constructor <;> rintro rfl <;> revert h <;> simp only [isHexDigit] <;> decide

/-- The first separator of a response ends its first field. -/
theorem cut_at_separator {pre field : List Char} {c d : Char} {rest rest' : List Char}
    (hpre : ∀ a ∈ pre, isSeparator a = false) (hfield : ∀ a ∈ field, isSeparator a = false)
    (hc : isSeparator c = true) (hd : isSeparator d = true) (h : pre ++ c :: rest = field ++ d :: rest') :
    pre = field ∧ c = d ∧ rest = rest' := by
  induction pre generalizing field with
  | nil =>
    cases field with
    | nil => exact ⟨rfl, List.cons.inj h⟩
    | cons a field =>
      cases (List.cons.inj h).1
      exact absurd hc (by simp [hfield c (.head _)])
  | cons a pre ih =>
    cases field with
    | nil =>
      cases (List.cons.inj h).1
      exact absurd hd (by simp [hpre d (.head _)])
    | cons b field =>
      obtain ⟨rfl, htail⟩ := List.cons.inj h
      obtain ⟨rfl, hcd⟩ := ih (fun a ha => hpre a (.tail _ ha)) (fun a ha => hfield a (.tail _ ha)) htail
      exact ⟨rfl, hcd⟩

theorem Delivers.eq_nil {replies : List Reply} (h : Delivers replies []) : replies = [] := by
  generalize hrest : ([] : List Char) = rest at h
  cases h with
  | nil => rfl
  | eagain more => exact absurd hrest.symm more
  | chunk some => exact absurd (List.append_eq_nil_iff.mp hrest.symm).1 some

namespace DrscanRead
variable {size : Nat} {s : DrscanRead}

theorem text_append (a m n : Nat) : s.text a (m + n) = s.text a m ++ s.text (a + m) n := by
  rw [text, text, text, List.range_add, List.map_append, List.map_map]
  congr 2
  funext j
  simp [Nat.add_assoc]

theorem text_succ (a n : Nat) : s.text a (n + 1) = s.text a n ++ [s.buf (a + n)] := by
  rw [text_append]
  simp [text]

theorem text_succ_left (a n : Nat) : s.text a (n + 1) = s.buf a :: s.text (a + 1) n := by
  rw [Nat.add_comm, text_append]
  simp [text]

theorem text_congr {t : DrscanRead} {a b n : Nat} (h : ∀ j < n, s.buf (a + j) = t.buf (b + j)) : s.text a n = t.text b n :=
  List.map_congr_left fun j hj => h j (List.mem_range.mp hj)

theorem text_put (s : DrscanRead) (cs : List Char) : (s.put cs).text s.bufPos cs.length = cs := by
  refine List.ext_getElem (by simp [text]) fun j _ h => ?_
  simp [text, put, h]

theorem text_put_of_le (cs : List Char) {a n : Nat} (h : a + n ≤ s.bufPos) : (s.put cs).text a n = s.text a n :=
  text_congr fun j hj => if_neg (by omega)

theorem text_shift (n : Int) {a k : Nat} (h : s.fieldEnd + a + k ≤ s.bufSize) (hs : s.bufSize < 2 ^ 64) :
    (s.shift n).text a k = s.text (s.fieldEnd + a) k := by
  refine text_congr fun j hj => ?_
  have hin : a + j < sizeSub s.bufSize s.fieldEnd := by
    rw [sizeSub_eq (by omega) hs]
    omega
  rw [shift]
  simp only
  rw [if_pos hin, Nat.add_assoc]

/-- The character at `buf[p]` is the next one of a response of which the bytes are `all`; the
field it belongs to lies before it in the buffer, and those before are stored. -/
inductive Reading (all : List Byte) (rest : List Char) (p : Nat) (s : DrscanRead) : Prop
  | intro (bytes : List Byte) (pre field : List Char) (fields : List (List Char))
      (whole : ∀ f ∈ field :: fields, WholeBytes f) (begun : ∀ c ∈ pre, isSeparator c = false)
      (text : pre ++ rest = response (field :: fields)) (held : s.text s.fieldStart pre.length = pre)
      (at_ : s.fieldStart + pre.length = p) (stores : s.stores = storesFrom 0 bytes)
      (respPos : s.respPos = bytes.length) (bytes_eq : bytes ++ jtagDrscanRead (field :: fields) = all)

variable {all : List Byte} {rest : List Char} {p : Nat} {c : Char}

theorem Reading.char (h : Reading all (c :: rest) p s) (hc : isSeparator c = false) (hbuf : s.buf p = c) :
    Reading all rest (p + 1) s := by
  obtain ⟨bytes, pre, field, fields, whole, begun, text, held, rfl, stores, respPos, bytes_eq⟩ := h
  refine ⟨bytes, pre ++ [c], field, fields, whole, ?_, by rw [List.append_assoc]; exact text, ?_, by simp; omega,
    stores, respPos, bytes_eq⟩
  · intro a ha
    rcases List.mem_append.mp ha with ha | ha
    · exact begun a ha
    · rw [List.mem_singleton.mp ha, hc]
  · rw [List.length_append, List.length_singleton, text_succ, held, hbuf]

/-- What `endField` does at the end of a field of whole bytes. -/
theorem endField_eq {pre : List Char} {n : Nat} (heven : pre.length % 2 = 0) (held : s.text s.fieldStart pre.length = pre)
    (hpos : s.respPos = n) (hfits : n + pre.length / 2 ≤ size) (hin : s.fieldStart + pre.length < s.bufSize)
    (hlim : s.bufSize < 2 ^ 31) (hsize : size < 2 ^ 31) :
    s.endField size (s.fieldStart + pre.length) = some
      { s with
        fieldStart := s.fieldStart + pre.length + 1
        fieldEnd := s.fieldStart + pre.length
        respPos := n + pre.length / 2
        stores := s.stores ++ storesFrom n (hexstringToBinarrayLe pre) } := by
  have hchars : signedOf 32 (unsignedOf 32 (((s.fieldStart + pre.length : Nat) : Int) - s.fieldStart)) = pre.length := by
    rw [show ((s.fieldStart + pre.length : Nat) : Int) - s.fieldStart = (pre.length : Int) by omega,
      unsignedOf_eq (by omega), signedOf_natCast (by omega)]
  have hnext : unsignedOf 32 ((n : Int) + ((pre.length : Int)).tdiv 2) = n + pre.length / 2 := by
    rw [Int.tdiv_eq_ediv_of_nonneg (by omega)]
    exact unsignedOf_eq (n := n + pre.length / 2) (by omega)
  have hstart : unsignedOf 32 (((s.fieldStart + pre.length : Nat) : Int) + 1) = s.fieldStart + pre.length + 1 :=
    unsignedOf_eq (n := s.fieldStart + pre.length + 1) (by omega)
  simp only [endField, hchars, hpos, hnext, hstart, Int.toNat_natCast, held]
  rw [if_neg (by omega), if_neg (by omega)]

theorem response_cons (field : List Char) (fields : List (List Char)) :
    response (field :: fields) = field ++ (if fields = [] then [ctrlZ] else ' ' :: response fields) := by
  cases fields <;> rfl

/-- A separator ends the field, and with it the response where there is no other field. -/
theorem Reading.separator (h : Reading all (c :: rest) p s) (hc : isSeparator c = true) (hall : all.length = size)
    (hin : p < s.bufSize) (hlim : s.bufSize < 2 ^ 31) (hsize : size < 2 ^ 31) :
    ∃ t, s.endField size p = some t ∧ t.buf = s.buf ∧ t.bufPos = s.bufPos ∧ t.bufSize = s.bufSize ∧
      t.fieldStart = p + 1 ∧ t.fieldEnd = p ∧ 2 ≤ p ∧
      if c = ctrlZ then rest = [] ∧ t.stores = storesFrom 0 all else Reading all rest (p + 1) t := by
  obtain ⟨bytes, pre, field, fields, whole, begun, text, held, rfl, stores, respPos, rfl⟩ := h
  have hfield : WholeBytes field := whole field (.head _)
  have hnone (a) (ha : a ∈ field) : isSeparator a = false := not_isSeparator (hfield.digits a ha)
  have hpre : 2 ≤ field.length := by
    have := hfield.even
    have := List.length_pos_of_ne_nil hfield.nonempty
    omega
  have hfits : bytes.length + field.length / 2 ≤ size := by
    rw [← hall, jtagDrscanRead, List.flatMap_cons, List.length_append, List.length_append,
      length_hexstringToBinarrayLe]
    omega
  rw [response_cons] at text
  have hcut : pre = field ∧ (if fields = [] then c = ctrlZ ∧ rest = [] else c = ' ' ∧ rest = response fields) := by
    by_cases hlast : fields = []
    · rw [if_pos hlast] at text ⊢
      exact cut_at_separator begun hnone hc (by decide) text
    · rw [if_neg hlast] at text ⊢
      exact cut_at_separator begun hnone hc (by decide) text
  obtain ⟨rfl, hrest⟩ := hcut
  refine ⟨_, endField_eq hfield.even held respPos hfits hin hlim hsize, rfl, rfl, rfl, rfl, rfl, by omega, ?_⟩
  have hstores : s.stores ++ storesFrom bytes.length (hexstringToBinarrayLe pre) =
      storesFrom 0 (bytes ++ hexstringToBinarrayLe pre) := by
    rw [stores, storesFrom_append, Nat.zero_add]
  cases fields with
  | nil =>
    rw [if_pos rfl] at hrest
    obtain ⟨rfl, rfl⟩ := hrest
    rw [if_pos rfl]
    exact ⟨rfl, by simpa [jtagDrscanRead] using hstores⟩
  | cons next fields =>
    rw [if_neg (by simp)] at hrest
    obtain ⟨rfl, rfl⟩ := hrest
    rw [if_neg (by decide)]
    refine ⟨bytes ++ hexstringToBinarrayLe pre, [], next, fields, fun f hf => whole f (.tail _ hf), List.forall_mem_nil _, rfl, rfl,
      rfl, hstores, ?_, ?_⟩
    · rw [List.length_append, length_hexstringToBinarrayLe]
    · simp [jtagDrscanRead, List.append_assoc]

/-- The characters of one read. -/
theorem Reading.extract {cs : List Char} {i : Nat} (h : Reading all (cs ++ rest) (s.bufPos + i) s)
    (hbuf : s.text (s.bufPos + i) cs.length = cs) (hall : all.length = size)
    (hin : s.bufPos + i + cs.length ≤ s.bufSize) (hlim : s.bufSize < 2 ^ 31) (hsize : size < 2 ^ 31) :
    extract size cs i s = .inl (.returned 0 (storesFrom 0 all)) ∧ rest = [] ∨
      ∃ t, extract size cs i s = .inr t ∧ Reading all rest (s.bufPos + i + cs.length) t ∧
        t.bufPos = s.bufPos ∧ t.bufSize = s.bufSize ∧
        if cs.any isSeparator then t.fieldStart = t.fieldEnd + 1 ∧ 2 ≤ t.fieldEnd ∧ t.fieldEnd < s.bufPos + i + cs.length
        else t = s := by
  induction cs generalizing s i with
  | nil => exact .inr ⟨s, rfl, h, rfl, rfl, rfl⟩
  | cons c cs ih =>
    rw [List.length_cons, text_succ_left] at hbuf
    obtain ⟨hchar, hrest⟩ := List.cons.inj hbuf
    rw [List.length_cons] at hin
    have hpos : unsignedOf 32 ((s.bufPos : Int) + i) = s.bufPos + i := unsignedOf_eq (n := s.bufPos + i) (by omega)
    have hlen : s.bufPos + i + (c :: cs).length = s.bufPos + (i + 1) + cs.length := by
      rw [List.length_cons]
      omega
    rw [DrscanRead.extract, hpos, List.any_cons, hlen, extractChar]
    cases hc : isSeparator c with
    | false => exact ih (h.char hc hchar) hrest (by omega) hlim
    | true =>
      obtain ⟨t, ht, htbuf, htpos, htsize, hstart, hend, hfar, hthen⟩ :=
        h.separator hc hall (by omega) hlim hsize
      rw [if_pos rfl, ht]
      by_cases hz : c = ctrlZ
      · rw [if_pos hz] at hthen
        obtain ⟨hnil, hstores⟩ := hthen
        simp only [hz, if_true, hstores]
        exact .inl ⟨trivial, (List.append_eq_nil_iff.mp hnil).2⟩
      · rw [if_neg hz] at hthen
        simp only [hz, if_false]
        rw [← htpos] at hthen hrest hin
        have hrest' : t.text (t.bufPos + i + 1) cs.length = cs := by
          refine Eq.trans ?_ hrest
          exact text_congr fun j _ => by rw [htbuf]
        rcases ih (i := i + 1) hthen hrest' (by omega) (by omega) with hdone | ⟨u, hu, hread, hupos, husize, hlast⟩
        · exact .inl hdone
        · rw [htpos] at hread hlast
          refine .inr ⟨u, hu, hread, hupos.trans htpos, husize.trans htsize, ?_⟩
          rw [if_pos (by simp)]
          split at hlast
          · exact hlast
          · subst hlast
            omega

theorem Reading.put (h : Reading all rest s.bufPos s) (cs : List Char) : Reading all rest s.bufPos (s.put cs) := by
  obtain ⟨bytes, pre, field, fields, whole, begun, text, held, at_, stores, respPos, bytes_eq⟩ := h
  exact ⟨bytes, pre, field, fields, whole, begun, text, (text_put_of_le cs at_.le).trans held, at_, stores, respPos,
    bytes_eq⟩

theorem Reading.shift (h : Reading all rest p s) (n : Int) (hend : s.fieldEnd ≤ s.fieldStart) (hin : p ≤ s.bufSize)
    (hlim : s.bufSize < 2 ^ 31) : Reading all rest (p - s.fieldEnd) (s.shift n) := by
  obtain ⟨bytes, pre, field, fields, whole, begun, text, held, rfl, stores, respPos, bytes_eq⟩ := h
  have hstart : (s.shift n).fieldStart = s.fieldStart - s.fieldEnd := by
    rw [DrscanRead.shift, ← Int.ofNat_sub hend]
    exact unsignedOf_eq (by omega)
  refine ⟨bytes, pre, field, fields, whole, begun, text, ?_, by omega, stores, respPos, bytes_eq⟩
  rw [hstart, text_shift n (by omega) (by omega), Nat.add_sub_cancel' hend, held]

theorem ctrlZ_mem_response (field : List Char) (fields : List (List Char)) : ctrlZ ∈ response (field :: fields) := by
  induction fields generalizing field with
  | nil => simp [response]
  | cons next fields ih =>
    rw [response_cons, if_neg (by simp)]
    exact List.mem_append_right _ (.tail _ (ih next))

/-- A response has not ended before its end. -/
theorem not_reading_nil : ¬Reading all [] p s := by
  rintro ⟨bytes, pre, field, fields, whole, begun, text, _⟩
  have hmem := ctrlZ_mem_response field fields
  rw [← text, List.append_nil] at hmem
  exact absurd (begun _ hmem) (by decide)

theorem growBuf_bounds {n : Nat} (hn : n ≤ 2 ^ 31) :
    n + min n (32 * 1024) ≤ growBuf n ∧ growBuf n ≤ max (2 ^ 16) (n + 2 ^ 15) := by
  unfold growBuf
  split
  · rw [sizeMul_eq (by omega)]
    omega
  · rw [sizeAdd_eq (by omega)]
    omega

theorem grow_eq (s : DrscanRead) : s.grow = { s with bufSize := s.grow.bufSize } := by
  unfold grow
  split <;> rfl

theorem grow_bounds (hmin : 2048 ≤ s.bufSize) (hmax : s.bufSize ≤ 2 ^ 30 + 2 ^ 15) :
    s.bufSize ≤ s.grow.bufSize ∧ s.grow.bufSize ≤ 2 ^ 30 + 2 ^ 16 ∧
      (s.bufPos ≤ 2 ^ 30 → s.grow.bufSize ≤ 2 ^ 30 + 2 ^ 15) ∧ (s.bufPos ≤ s.bufSize → s.bufPos < s.grow.bufSize) := by
  have hgrow := growBuf_bounds (n := s.bufSize) (by omega)
  unfold grow
  split
  · change s.bufSize ≤ growBuf s.bufSize ∧ growBuf s.bufSize ≤ 2 ^ 30 + 2 ^ 16 ∧
      (s.bufPos ≤ 2 ^ 30 → growBuf s.bufSize ≤ 2 ^ 30 + 2 ^ 15) ∧ (s.bufPos ≤ s.bufSize → s.bufPos < growBuf s.bufSize)
    omega
  · omega

structure Between (all : List Byte) (rest : List Char) (seen : Bool) (s : DrscanRead) : Prop where
  reading : Reading all rest s.bufPos s
  field : if seen then s.fieldStart = 1 ∧ 2 ≤ s.fieldEnd else s.fieldStart = 0 ∧ s.fieldEnd = 0
  total : s.bufPos + rest.length ≤ 2 ^ 30
  inside : s.bufPos ≤ s.bufSize
  stale : s.fieldEnd < s.bufSize
  sizeMin : 2048 ≤ s.bufSize
  sizeMax : s.bufSize ≤ 2 ^ 30 + 2 ^ 15

variable {seen : Bool}

theorem Between.grow (h : Between all rest seen s) : Between all rest seen s.grow ∧ s.bufPos < s.grow.bufSize := by
  obtain ⟨hsize, -, hmax, hroom⟩ := grow_bounds h.sizeMin h.sizeMax
  have hpos := hroom h.inside
  obtain ⟨bytes, pre, field, fields, whole, begun, text, held, at_, stores, respPos, bytes_eq⟩ := h.reading
  rw [grow_eq]
  exact ⟨⟨⟨bytes, pre, field, fields, whole, begun, text, held, at_, stores, respPos, bytes_eq⟩, h.field, h.total,
    hpos.le, h.stale.trans_le hsize, h.sizeMin.trans hsize, hmax (by have := h.total; omega)⟩, hpos⟩

theorem Between.shift {n : Nat} (h : Reading all rest (s.bufPos + n) s)
    (hfield : if seen then s.fieldStart = s.fieldEnd + 1 ∧ 2 ≤ s.fieldEnd ∧ s.fieldEnd < s.bufPos + n
      else s.fieldStart = 0 ∧ s.fieldEnd = 0)
    (hin : s.bufPos + n ≤ s.bufSize) (htotal : s.bufPos + n + rest.length ≤ 2 ^ 30) (hmin : 2048 ≤ s.bufSize)
    (hmax : s.bufSize ≤ 2 ^ 30 + 2 ^ 15) : Between all rest seen (s.shift n) := by
  have hends : s.fieldEnd ≤ s.fieldStart ∧ s.fieldEnd ≤ s.bufPos + n := by
    split at hfield <;> omega
  have hpos : (s.shift n).bufPos = s.bufPos + n - s.fieldEnd := by
    rw [DrscanRead.shift, ← Int.natCast_add, ← Int.ofNat_sub hends.2]
    exact unsignedOf_eq (by omega)
  have hstart : (s.shift n).fieldStart = s.fieldStart - s.fieldEnd := by
    rw [DrscanRead.shift, ← Int.ofNat_sub hends.1]
    exact unsignedOf_eq (by split at hfield <;> omega)
  have hend : (s.shift n).fieldEnd = s.fieldEnd := rfl
  have hsize : (s.shift n).bufSize = s.bufSize := rfl
  refine ⟨?_, ?_, by omega, by omega, ?_, by omega, by omega⟩
  · rw [hpos]
    exact h.shift n hends.1 hin (by omega)
  · rw [hstart, hend]
    split at hfield
    · rw [if_pos ‹_›]
      omega
    · rw [if_neg ‹_›]
      omega
  · split at hfield <;> omega

/-- A read that ends a field, or comes before any field has ended, leaves nothing stale. -/
theorem Between.chunk {cs : List Char} (h : Between all (cs ++ rest) seen s) (hroom : cs.length ≤ s.grow.room)
    (hsteady : seen = true → cs.any isSeparator = true) (hall : all.length = size) (hsize : size < 2 ^ 31) :
    s.next size (.chunk cs) = .inl (.returned 0 (storesFrom 0 all)) ∧ rest = [] ∨
      ∃ t, s.next size (.chunk cs) = .inr t ∧ Between all rest (seen || cs.any isSeparator) t := by
  obtain ⟨hg, hin⟩ := h.grow
  have hpos : s.grow.bufPos = s.bufPos := by rw [grow_eq]
  have hmax := hg.sizeMax
  have htotal := hg.total
  have hmin := hg.sizeMin
  rw [room, sizeSub_eq (by omega) (by omega)] at hroom
  rw [List.length_append] at htotal
  rw [next, if_neg (by omega)]
  have hread := (hg.reading.put cs).extract (i := 0) (s := s.grow.put cs) (text_put s.grow cs) hall
    (by change s.grow.bufPos + 0 + cs.length ≤ s.grow.bufSize; omega)
    (by change s.grow.bufSize < 2 ^ 31; omega) hsize
  rcases hread with ⟨hdone, hnil⟩ | ⟨t, ht, hread, htpos, htsize, hsep⟩
  · rw [hdone]
    exact .inl ⟨rfl, hnil⟩
  · rw [ht]
    replace htpos : t.bufPos = s.grow.bufPos := htpos
    replace htsize : t.bufSize = s.grow.bufSize := htsize
    refine .inr ⟨_, rfl, Between.shift ?_ ?_ (by omega) (by omega) (by omega) (by omega)⟩
    · rw [htpos]
      exact hread
    · split at hsep
      · rename_i hany
        rw [if_pos (by simp [hany]), htpos]
        exact hsep
      · rename_i hany
        have hseen : seen = false := Bool.eq_false_iff.mpr fun h => hany (hsteady h)
        have hfield := hg.field
        rw [hseen, if_neg (by simp)] at hfield
        rw [hseen, if_neg (by simpa using hany), hsep]
        exact hfield

/-- With steady reads the call returns, and has stored the bytes of the response. -/
theorem run_steady {replies : List Reply} (h : Between all rest seen s) (hdel : Delivers replies rest)
    (hfits : Fits size s replies) (hsteady : Steady seen replies) (hall : all.length = size) (hsize : size < 2 ^ 31) :
    run size s replies = .returned 0 (storesFrom 0 all) := by
  induction hdel generalizing s seen with
  | nil => exact absurd h.reading not_reading_nil
  | eagain => cases hsteady
  | @chunk replies cs rest _ _ ih =>
    obtain ⟨hsep, hrest⟩ := hsteady
    obtain ⟨hfit, hfits⟩ := hfits
    rcases h.chunk hfit hsep hall hsize with ⟨hdone, -⟩ | ⟨t, ht, hnext⟩
    · rw [run, hdone]
    · rw [ht] at hfits
      rw [run, ht]
      exact ih hnext hfits hrest

def fieldChars (cs : List Char) : Nat := cs.countP fun c => !isSeparator c

/-- In the loop over new characters, with some missing or before a start below the buffer: the
stored bytes and the field before `buf[p]` have no more characters than the `count` that came. -/
structure Off (count : Nat) (p start : Int) (s : DrscanRead) : Prop where
  start_eq : s.fieldStart = unsignedOf 32 start
  start_le : start ≤ s.fieldEnd + 1
  near : start ≤ p + 1
  le : 2 * s.stores.length + (p - start) ≤ count
  wrong : 2 * s.stores.length + (p - start) < count ∨ start < 0

def Short (count : Nat) (outcome : DrscanOutcome) : Prop :=
  ∀ stores, outcome = .returned 0 stores → 2 * stores.length < count

variable {count : Nat} {start : Int}

theorem Off.char (h : Off count p start s) : Off (count + 1) (p + 1) start s := by
  obtain ⟨start_eq, start_le, near, le, wrong⟩ := h
  exact ⟨start_eq, start_le, by omega, by push_cast; omega, by push_cast; omega⟩

/-- A field that starts below the buffer cannot be read, and none has become shorter by an odd
number of characters. -/
theorem Off.endField (h : Off count p start s) (hp : p < s.bufSize) (hsize : s.bufSize ≤ 2 ^ 30 + 2 ^ 15)
    (hcount : count ≤ 2 ^ 30) {t : DrscanRead} (ht : s.endField size p = some t) :
    Off count (p + 1) (p + 1) t ∧ 2 * t.stores.length < count ∧ t.bufPos = s.bufPos ∧ t.bufSize = s.bufSize ∧
      t.fieldEnd = p := by
  obtain ⟨start_eq, start_le, near, le, wrong⟩ := h
  have hchars : signedOf 32 (unsignedOf 32 ((p : Int) - s.fieldStart)) = p - start := by
    rw [start_eq, unsignedOf_sub_unsignedOf, signedOf_unsignedOf]
    exact signedOf_eq (by omega) (by omega)
  simp only [DrscanRead.endField, hchars] at ht
  split at ht
  · cases ht
  · rename_i hgood
    rw [not_or, not_not] at hgood
    split at ht
    · cases ht
    · rename_i hinside
      have hstart : 0 ≤ start := by
        by_contra hneg
        have : (s.fieldStart : Int) = start + 2 ^ 32 := by
          rw [start_eq, unsignedOf]
          omega
        omega
      have hpos : 0 ≤ (p : Int) - start := by omega
      have hbytes : (hexstringToBinarrayLe (s.text s.fieldStart ((p : Int) - start).toNat)).length * 2 = (p : Int) - start := by
        rw [length_hexstringToBinarrayLe, text, List.length_map, List.length_range]
        omega
      cases Option.some_inj.mp ht
      refine ⟨⟨rfl, Int.le_refl _, by omega, ?_, ?_⟩, ?_, rfl, rfl, rfl⟩
      all_goals
        rw [List.length_append, length_storesFrom]
        omega

theorem Off.extract (size : Nat) {cs : List Char} {i : Nat} (h : Off count ((s.bufPos + i : Nat) : Int) start s)
    (hin : s.bufPos + i + cs.length ≤ s.bufSize) (hsize : s.bufSize ≤ 2 ^ 30 + 2 ^ 15) (hend : s.fieldEnd < s.bufSize)
    (hcount : count + fieldChars cs ≤ 2 ^ 30) :
    (∃ outcome, extract size cs i s = .inl outcome ∧ Short (count + fieldChars cs) outcome) ∨
      ∃ t start', extract size cs i s = .inr t ∧
        Off (count + fieldChars cs) ((s.bufPos + i + cs.length : Nat) : Int) start' t ∧
        t.bufPos = s.bufPos ∧ t.bufSize = s.bufSize ∧ t.fieldEnd < s.bufSize := by
  induction cs generalizing s i count start with
  | nil => exact .inr ⟨s, start, rfl, h, rfl, rfl, hend⟩
  | cons c cs ih =>
    rw [List.length_cons] at hin
    have hpos : unsignedOf 32 ((s.bufPos : Int) + i) = s.bufPos + i := unsignedOf_eq (n := s.bufPos + i) (by omega)
    have hlen : s.bufPos + i + (c :: cs).length = s.bufPos + (i + 1) + cs.length := by
      rw [List.length_cons]
      omega
    rw [fieldChars, List.countP_cons] at hcount ⊢
    rw [DrscanRead.extract, hpos, hlen, extractChar]
    cases hc : isSeparator c with
    | false =>
      have hcs : cs.countP (fun c => !isSeparator c) + 1 = 1 + fieldChars cs := Nat.add_comm _ _
      simp only [hc, Bool.not_false, if_true] at hcount ⊢
      rw [hcs, ← Nat.add_assoc] at hcount ⊢
      exact ih (i := i + 1) (by exact_mod_cast h.char) (by omega) hsize hend hcount
    | true =>
      simp only [hc, Bool.not_true, Bool.false_eq_true, if_false, Nat.add_zero, if_true] at hcount ⊢
      cases ht : s.endField size (s.bufPos + i) with
      | none => exact .inl ⟨.fault, rfl, nofun⟩
      | some t =>
        obtain ⟨hoff, hless, htpos, htsize, htend⟩ := h.endField (by omega) hsize (by omega) ht
        by_cases hz : c = ctrlZ
        · simp only [hz, if_true]
          refine .inl ⟨_, rfl, fun stores hret => ?_⟩
          cases hret
          omega
        · simp only [hz, if_false]
          rw [← htpos, ← htsize] at hin
          rw [← htsize] at hsize
          rw [← htpos] at hoff
          rcases ih (i := i + 1) (by exact_mod_cast hoff) (by omega) hsize (by omega) hcount with
            hdone | ⟨u, start', hu, hoffu, hupos, husize, huend⟩
          · exact .inl hdone
          · rw [htpos] at hoffu
            exact .inr ⟨u, start', hu, hoffu, hupos.trans htpos, husize.trans htsize, by omega⟩

/-- The loop before a read, where one has gone wrong. The position may have become negative. -/
structure Lost (count : Nat) (s : DrscanRead) : Prop where
  off : ∃ p start : Int, s.bufPos = unsignedOf 32 p ∧ s.fieldStart = unsignedOf 32 start ∧ start ≤ 1 ∧
    2 * s.stores.length + (p - start) ≤ count ∧ (2 * s.stores.length + (p - start) < count ∨ start < 0) ∧
    -(2 ^ 30 + 2 ^ 16) ≤ p
  stale : s.fieldEnd < s.bufSize
  sizeMin : 2048 ≤ s.bufSize
  sizeMax : s.bufSize ≤ 2 ^ 30 + 2 ^ 15

/-- The text before `buf[p]` is moved to the front, with `d` characters less in the eyes of the loop. -/
theorem Lost.shift {n d p a : Int} (hp : 0 ≤ p) (hstart : s.fieldStart = unsignedOf 32 a)
    (hback : a ≤ s.fieldEnd + 1) (hpos : (s.bufPos : Int) + n = p - d) (hle : 2 * s.stores.length + (p - a) ≤ count)
    (hwrong : 2 * s.stores.length + (p - a) < count ∨ a - s.fieldEnd < 0 ∨ 0 < d) (hd : 0 ≤ d) (hd' : d ≤ 1)
    (hend : s.fieldEnd < s.bufSize) (hmin : 2048 ≤ s.bufSize) (hmax : s.bufSize ≤ 2 ^ 30 + 2 ^ 15) :
    Lost count (s.shift n) := by
  refine ⟨⟨p - d - s.fieldEnd, a - s.fieldEnd, ?_, ?_, by omega, ?_, ?_, by omega⟩, hend, hmin, hmax⟩
  · rw [DrscanRead.shift, hpos]
  · rw [DrscanRead.shift, hstart, unsignedOf_unsignedOf_sub]
  · change 2 * (s.stores.length : Int) + _ ≤ _
    omega
  · change 2 * (s.stores.length : Int) + _ < _ ∨ _
    omega

theorem Lost.next (size : Nat) {r : Reply} {cs : List Char} (h : Lost count s) (hr : r = .eagain ∧ cs = [] ∨ r = .chunk cs)
    (hroom : r.length ≤ s.grow.room) (hcount : count + fieldChars cs < 2 ^ 30) :
    (∃ outcome, s.next size r = .inl outcome ∧ Short (count + fieldChars cs) outcome) ∨
      ∃ t, s.next size r = .inr t ∧ Lost (count + fieldChars cs) t := by
  obtain ⟨⟨p, start, hpos, hstart, hone, hle, hwrong, hp⟩, hstale, hmin, hmax⟩ := h
  obtain ⟨hgrow, hlarge, hgrown, -⟩ := grow_bounds hmin hmax
  have hgpos : s.grow.bufPos = s.bufPos := by rw [grow_eq]
  have hgstart : s.grow.fieldStart = unsignedOf 32 start := by rw [grow_eq, hstart]
  have hgend : s.grow.fieldEnd = s.fieldEnd := by rw [grow_eq]
  have hgstores : s.grow.stores = s.stores := by rw [grow_eq]
  by_cases hfault : s.grow.bufSize < s.grow.bufPos
  · refine .inl ⟨.fault, ?_, nofun⟩
    rcases hr with ⟨rfl, rfl⟩ | rfl <;> rw [DrscanRead.next, if_pos hfault]
  · -- a negative position is far beyond the end of the buffer
    have hnonneg : 0 ≤ p := by
      by_contra hneg
      have hwrap : s.bufPos = p + 2 ^ 32 := by
        rw [hpos, unsignedOf]
        omega
      omega
    have hpos' : (s.bufPos : Int) = p := by
      rw [hpos, unsignedOf]
      omega
    have hmax' := hgrown (by omega)
    rcases hr with ⟨rfl, rfl⟩ | rfl <;> rw [DrscanRead.next, if_neg hfault]
    · exact .inr ⟨_, rfl, Lost.shift (p := p) (d := 1) hnonneg hgstart (by omega) (by omega) (by rw [hgstores]; exact hle) (by omega)
        (by omega) (by omega) (by omega) (by omega) hmax'⟩
    · change cs.length ≤ s.grow.room at hroom
      rw [room, sizeSub_eq (by omega) (by omega)] at hroom
      have hoff : Off count ((s.grow.bufPos + 0 : Nat) : Int) start (s.grow.put cs) := by
        refine ⟨hgstart, ?_, by omega, ?_, ?_⟩
        · change start ≤ s.grow.fieldEnd + 1
          omega
        · change 2 * (s.grow.stores.length : Int) + _ ≤ _
          rw [hgstores]
          omega
        · change 2 * (s.grow.stores.length : Int) + _ < _ ∨ _
          rw [hgstores]
          omega
      rcases Off.extract size (s := s.grow.put cs) (i := 0) hoff
          (by change s.grow.bufPos + 0 + cs.length ≤ s.grow.bufSize; omega) hmax'
          (by change s.grow.fieldEnd < s.grow.bufSize; omega) hcount.le with
        ⟨outcome, ho, hshort⟩ | ⟨t, start', ht, hoff', htpos, htsize, htend⟩
      · rw [ho]
        exact .inl ⟨outcome, rfl, hshort⟩
      · rw [ht]
        obtain ⟨hs', hback, -, hle', hwrong'⟩ := hoff'
        replace htpos : t.bufPos = s.grow.bufPos := htpos
        replace htsize : t.bufSize = s.grow.bufSize := htsize
        replace htend : t.fieldEnd < s.grow.bufSize := htend
        change 2 * (t.stores.length : Int) + ((s.grow.bufPos + 0 + cs.length : Nat) - start') ≤ _ at hle'
        change 2 * (t.stores.length : Int) + ((s.grow.bufPos + 0 + cs.length : Nat) - start') < _ ∨ _ at hwrong'
        exact .inr ⟨_, rfl, Lost.shift (d := 0) (by omega) hs' hback (by omega) hle' (by omega) (by omega) (by omega) (by omega)
          (by omega) (by omega)⟩

theorem fieldChars_of_none {cs : List Char} (h : ∀ c ∈ cs, isSeparator c = false) : fieldChars cs = cs.length :=
  List.countP_eq_length.mpr fun c hc => by simp [h c hc]

theorem fieldChars_response {fields : List (List Char)} (h : ∀ f ∈ fields, WholeBytes f) :
    fieldChars (response fields) = 2 * (jtagDrscanRead fields).length := by
  induction fields with
  | nil => rfl
  | cons field fields ih =>
    have hfield : WholeBytes field := h field (.head _)
    have hchars := fieldChars_of_none fun c hc => not_isSeparator (hfield.digits c hc)
    have heven := hfield.even
    have ih := ih fun f hf => h f (.tail _ hf)
    rw [fieldChars] at hchars ih ⊢
    have hrest : (if fields = [] then [ctrlZ] else ' ' :: response fields).countP (fun c => !isSeparator c) =
        2 * (jtagDrscanRead fields).length := by
      split
      · rename_i hnil
        rw [hnil]
        rfl
      · rw [List.countP_cons_of_neg (by decide), ih]
    have hbytes : jtagDrscanRead (field :: fields) = hexstringToBinarrayLe field ++ jtagDrscanRead fields := rfl
    rw [response_cons, List.countP_append, hchars, hrest, hbytes, List.length_append, length_hexstringToBinarrayLe]
    omega

/-- Every character of a field is stored, in the buffer or still to come. -/
theorem Reading.chars (h : Reading all rest p s) :
    2 * s.stores.length + (p - s.fieldStart) + fieldChars rest = 2 * all.length := by
  obtain ⟨bytes, pre, field, fields, whole, begun, text, held, rfl, stores, respPos, rfl⟩ := h
  have hall := fieldChars_response whole
  rw [← text, fieldChars, List.countP_append, ← fieldChars, ← fieldChars, fieldChars_of_none begun] at hall
  rw [stores, length_storesFrom, List.length_append]
  omega

theorem extract_of_none {cs : List Char} {i : Nat} (h : ∀ c ∈ cs, isSeparator c = false) :
    DrscanRead.extract size cs i s = .inr s := by
  induction cs generalizing i with
  | nil => rfl
  | cons c cs ih =>
    rw [DrscanRead.extract, extractChar, h c (.head _)]
    exact ih fun a ha => h a (.tail _ ha)

theorem Between.eagain (size : Nat) (h : Between all rest seen s) :
    ∃ t, s.next size .eagain = .inr t ∧ Lost (2 * all.length - fieldChars rest) t := by
  obtain ⟨hg, hin⟩ := h.grow
  have hgpos : s.grow.bufPos = s.bufPos := by rw [grow_eq]
  have hcount := hg.reading.chars
  have hfield := hg.field
  have htotal := hg.total
  have hstale := hg.stale
  obtain ⟨bytes, pre, -, -, -, -, -, -, at_, -⟩ := hg.reading
  rw [DrscanRead.next, if_neg (by omega)]
  refine ⟨_, rfl, Lost.shift (p := s.grow.bufPos) (d := 1) (a := s.grow.fieldStart) (by omega)
    (unsignedOf_eq (by omega)).symm ?_ (by omega) (by omega) (by omega) (by omega) (by omega) hstale hg.sizeMin hg.sizeMax⟩
  split at hfield <;> omega

theorem Between.stale_chunk (size : Nat) {cs : List Char} (h : Between all (cs ++ rest) true s)
    (hcs : ∀ c ∈ cs, isSeparator c = false) :
    ∃ t, s.next size (.chunk cs) = .inr t ∧ Lost (2 * all.length - fieldChars rest) t := by
  obtain ⟨hg, hin⟩ := h.grow
  have hgpos : s.grow.bufPos = s.bufPos := by rw [grow_eq]
  have hmax := hg.sizeMax
  have hcount := hg.reading.chars
  rw [fieldChars, List.countP_append, ← fieldChars, ← fieldChars, fieldChars_of_none hcs] at hcount
  have hfield := hg.field
  have htotal := hg.total
  have hstale := hg.stale
  obtain ⟨bytes, pre, -, -, -, -, -, -, at_, -⟩ := hg.reading
  rw [if_pos rfl] at hfield
  rw [DrscanRead.next, if_neg (by omega), extract_of_none hcs]
  refine ⟨_, rfl, Lost.shift (s := s.grow.put cs) (p := s.grow.bufPos + cs.length) (d := 0) (a := s.grow.fieldStart)
    (by omega) (unsignedOf_eq (n := s.grow.fieldStart) (by omega)).symm ?_ ?_ ?_ ?_ (by omega) (by omega) hstale hg.sizeMin hmax⟩
  · change (s.grow.fieldStart : Int) ≤ s.grow.fieldEnd + 1
    omega
  · change (s.grow.bufPos : Int) + _ = _
    omega
  · change 2 * (s.grow.stores.length : Int) + _ ≤ _
    omega
  · change 2 * (s.grow.stores.length : Int) + _ < _ ∨ (s.grow.fieldStart : Int) - s.grow.fieldEnd < 0 ∨ _
    omega

/-- What has gone wrong does not become right: the call does not store as much as has come. -/
theorem run_lost {replies : List Reply} (h : Lost count s) (hdel : Delivers replies rest) (hfits : Fits size s replies)
    (hcount : count + fieldChars rest < 2 ^ 30) : Short (count + fieldChars rest) (run size s replies) := by
  induction hdel generalizing s count with
  | nil => exact nofun
  | eagain _ _ ih =>
    obtain ⟨-, hfits⟩ := hfits
    rcases h.next size (.inl ⟨rfl, rfl⟩) (Nat.zero_le _) (by simp only [fieldChars, List.countP_nil]; omega) with
      ⟨outcome, ho, hshort⟩ | ⟨t, ht, hlost⟩
    · rw [run, ho]
      exact fun stores hret => (hshort stores hret).trans_le (by simp [fieldChars])
    · rw [ht] at hfits
      rw [run, ht]
      exact ih hlost hfits hcount
  | @chunk replies cs rest _ _ ih =>
    obtain ⟨hfit, hfits⟩ := hfits
    rw [fieldChars, List.countP_append, ← Nat.add_assoc] at hcount ⊢
    rcases h.next size (.inr rfl) hfit (by exact (Nat.le_add_right _ _).trans_lt hcount) with
      ⟨outcome, ho, hshort⟩ | ⟨t, ht, hlost⟩
    · rw [run, ho]
      exact fun stores hret => (hshort stores hret).trans_le (Nat.le_add_right _ _)
    · rw [ht] at hfits
      rw [run, ht]
      exact ih hlost hfits hcount

/-- From a state in which none has gone wrong, the reads give the bytes exactly when they are steady. -/
theorem run_eq_iff {replies : List Reply} (h : Between all rest seen s) (hdel : Delivers replies rest)
    (hfits : Fits size s replies) (hall : all.length = size) (hsize : 2 * size < 2 ^ 30) :
    run size s replies = .returned 0 (storesFrom 0 all) ↔ Steady seen replies := by
  have hlost {replies} {rest} {t} (hlost : Lost (2 * all.length - fieldChars rest) t) (hle : fieldChars rest ≤ 2 * all.length)
      (hdel : Delivers replies rest) (hfits : Fits size t replies) :
      run size t replies ≠ .returned 0 (storesFrom 0 all) := by
    intro hret
    have hshort := run_lost hlost hdel hfits (by omega) _ hret
    rw [length_storesFrom] at hshort
    omega
  induction hdel generalizing s seen with
  | nil => exact absurd h.reading not_reading_nil
  | eagain _ hdel =>
    refine iff_of_false ?_ (by simp [Steady])
    obtain ⟨t, ht, hbad⟩ := h.eagain size
    obtain ⟨-, hfits⟩ := hfits
    rw [ht] at hfits
    rw [run, ht]
    have := h.reading.chars
    exact hlost hbad (by omega) hdel hfits
  | @chunk replies cs rest _ hdel ih =>
    obtain ⟨hfit, hfits⟩ := hfits
    have hcount := h.reading.chars
    rw [fieldChars, List.countP_append, ← fieldChars, ← fieldChars] at hcount
    by_cases hsep : seen = true → cs.any isSeparator = true
    · rcases h.chunk hfit hsep hall (by omega) with ⟨hdone, rfl⟩ | ⟨t, ht, hnext⟩
      · rw [hdel.eq_nil]
        exact iff_of_true (by rw [run, hdone]) ⟨hsep, trivial⟩
      · rw [ht] at hfits
        rw [run, ht, Steady]
        exact (ih hnext hfits).trans (iff_and_self.mpr fun _ => hsep)
    · refine iff_of_false ?_ fun hsteady => hsep hsteady.1
      rw [Classical.not_imp] at hsep
      obtain ⟨rfl, hnone⟩ := hsep
      obtain ⟨t, ht, hbad⟩ := h.stale_chunk size (by simpa using hnone)
      rw [ht] at hfits
      rw [run, ht]
      exact hlost hbad (by omega) hdel hfits

theorem between_init (buf : Nat → Char) {fields : List (List Char)} (hne : fields ≠ [])
    (hfields : ∀ f ∈ fields, WholeBytes f) (hlen : (response fields).length ≤ 2 ^ 30) :
    Between (jtagDrscanRead fields) (response fields) false (init buf) := by
  obtain ⟨field, fields, rfl⟩ := List.exists_cons_of_ne_nil hne
  have hlen : 0 + (response (field :: fields)).length ≤ 2 ^ 30 := by omega
  exact ⟨⟨[], [], field, fields, hfields, nofun, rfl, rfl, rfl, rfl, rfl, rfl⟩, ⟨rfl, rfl⟩, hlen, Nat.zero_le _,
    Nat.zero_lt_succ _, Nat.le_refl _, show 2048 ≤ 2 ^ 30 + 2 ^ 15 by omega⟩

end DrscanRead

section Whole
variable {fields : List (List Char)} (hne : fields ≠ []) (hfields : ∀ f ∈ fields, WholeBytes f)
  (hlen : (response fields).length ≤ 2 ^ 30) (buf : Nat → Char)
include hne hfields hlen

theorem drscanRead_steady {replies : List Reply} (hdel : Delivers replies (response fields))
    (hfits : DrscanRead.Fits (jtagDrscanRead fields).length (.init buf) replies) (hsteady : Steady false replies) :
    DrscanRead.run (jtagDrscanRead fields).length (.init buf) replies =
      .returned 0 (storesFrom 0 (jtagDrscanRead fields)) := by
  have hsize : 2 * (jtagDrscanRead fields).length ≤ (response fields).length := by
    rw [← DrscanRead.fieldChars_response hfields]
    exact List.countP_le_length
  exact DrscanRead.run_steady (DrscanRead.between_init buf hne hfields hlen) hdel hfits hsteady rfl (by omega)

theorem drscanRead_oneRead (hfit : (response fields).length ≤ 2048) :
    DrscanRead.run (jtagDrscanRead fields).length (.init buf) [.chunk (response fields)] =
      .returned 0 (storesFrom 0 (jtagDrscanRead fields)) := by
  have hsome : response fields ≠ [] := by
    obtain ⟨field, fields, rfl⟩ := List.exists_cons_of_ne_nil hne
    exact List.ne_nil_of_mem (DrscanRead.ctrlZ_mem_response field fields)
  have hdel : Delivers [.chunk (response fields)] (response fields ++ []) := .chunk hsome .nil
  rw [List.append_nil] at hdel
  refine drscanRead_steady hne hfields hlen buf hdel ⟨hfit, ?_⟩ ⟨nofun, trivial⟩
  split <;> trivial

/-- However the response is delivered, the call returns and stores the bytes that it stores when
all of it comes in one read exactly when the reads are steady. The command with as many bytes fits
its own buffer, so the response is far shorter than the bound. -/
theorem drscanRead_chunked_iff {replies : List Reply} (hdel : Delivers replies (response fields))
    (hfits : DrscanRead.Fits (jtagDrscanRead fields).length (.init buf) replies) :
    ((response fields).length ≤ 2048 →
      DrscanRead.run (jtagDrscanRead fields).length (.init buf) [.chunk (response fields)] =
        .returned 0 (storesFrom 0 (jtagDrscanRead fields))) ∧
    (DrscanRead.run (jtagDrscanRead fields).length (.init buf) replies =
      .returned 0 (storesFrom 0 (jtagDrscanRead fields)) ↔ Steady false replies) := by
  have hsize : 2 * (jtagDrscanRead fields).length < 2 ^ 30 := by
    obtain ⟨field, fields, rfl⟩ := List.exists_cons_of_ne_nil hne
    rw [← DrscanRead.fieldChars_response hfields]
    refine Nat.lt_of_lt_of_le (List.countP_lt_length_iff.mpr ⟨ctrlZ, ?_, by decide⟩) hlen
    exact DrscanRead.ctrlZ_mem_response field fields
  exact ⟨drscanRead_oneRead hne hfields hlen buf,
    DrscanRead.run_eq_iff (DrscanRead.between_init buf hne hfields hlen) hdel hfits rfl hsize⟩

end Whole

theorem drscanRead_chunked_iff_cut :
    DrscanRead.run 2 (.init fun _ => ' ') [.chunk ['0'], .chunk ['1', ' ', '0'], .chunk ['2', ctrlZ]] =
      .returned 0 (storesFrom 0 (jtagDrscanRead [['0', '1'], ['0', '2']])) ↔
    Steady false [.chunk ['0'], .chunk ['1', ' ', '0'], .chunk ['2', ctrlZ]] := by
  have hdel : Delivers [.chunk ['0'], .chunk ['1', ' ', '0'], .chunk ['2', ctrlZ]]
      (['0'] ++ (['1', ' ', '0'] ++ (['2', ctrlZ] ++ []))) :=
    .chunk (by decide) (.chunk (by decide) (.chunk (by decide) .nil))
  have hfields : ∀ f ∈ [['0', '1'], ['0', '2']], WholeBytes f := by
    simp only [List.forall_mem_cons]
    exact ⟨by decide, by decide, nofun⟩
  exact (drscanRead_chunked_iff (by decide) hfields (by decide) (fun _ => ' ') hdel (by decide +kernel)).2

/-- After the first separator a read without one makes the call leave its buffer, and read() with
nothing to deliver makes it lose what has come. -/
theorem drscanRead_cut_wrong :
    DrscanRead.run 2 (.init fun _ => ' ') [.chunk ['0', '1', ' ', '0', '2', ctrlZ]] =
      .returned 0 [(0, 1), (1, 2)] ∧
    DrscanRead.run 2 (.init fun _ => ' ') [.chunk ['0', '1', ' '], .chunk ['0'], .chunk ['2', ctrlZ]] = .fault ∧
    DrscanRead.run 2 (.init fun _ => ' ') [.chunk ['0', '1'], .eagain, .eagain, .chunk [' ', '0', '2', ctrlZ]] =
      .returned 0 [(0, 2)] := by
  decide +kernel

end Glip.Jtag
