import Glip.CircularBuffer.Positions

/-! The bytes that a circular buffer holds, and what each access to the array and
each move of a pointer does to them. -/
namespace Glip.CircularBuffer
open Foundation
variable (size : Nat)

def used (s : Cbuf) : Nat := distance size s.wrPtr s.rdPtr

/-- The unread bytes, oldest first. -/
def contents (s : Cbuf) : List UInt8 := window s.data.byte size s.rdPtr (used size s)

def capacity (b : Option Block) : Nat := (b.map Block.len).getD 0

/-- A buffer in use. The temporary buffers are as large as recorded unless some
allocation may fail, which is what `oom` stands for. -/
structure Ok (oom : Prop) (s : Cbuf) : Prop where
  wr : s.wrPtr < 2 * size
  rd : s.rdPtr < 2 * size
  fill : used size s ≤ size
  len : s.data.len = size
  writeTmp : oom ∨ s.writeDataTmpSize ≤ capacity s.writeDataTmp
  readTmp : oom ∨ s.readDataTmpSize ≤ capacity s.readDataTmp

variable {size} {oom : Prop} {s : Cbuf}

@[simp] theorem contents_length (s : Cbuf) : (contents size s).length = used size s := by
  simp [contents]

theorem newCbuf_ok (h : IsSize size) : Ok size oom (newCbuf size) := by
  have := h.pos
  exact ⟨by simp [newCbuf, this], by simp [newCbuf, this], by simp [used, newCbuf], rfl,
    .inr (by simp [newCbuf]), .inr (by simp [newCbuf])⟩

theorem newCbuf_contents (size : Nat) : contents size (newCbuf size) = [] :=
  List.eq_nil_of_length_eq_zero (by simp [used, newCbuf])

/-- `cbuf_init` accepts every power of two. -/
theorem cbufInit_eq (h : IsSize size) : cbufInit size = some (newCbuf size) := by
  have hpos := h.pos
  have hmask : size &&& sizeSub size 1 = 0 := by
    have := index_eq h size
    rwa [Nat.mod_self] at this
  exact if_pos ⟨hpos.ne', hmask⟩

/-- The free part of the array begins where the unread bytes end. -/
theorem Ok.wr_modEq (h : Ok size oom s) : s.wrPtr ≡ s.rdPtr + used size s [MOD size] :=
  distance_modEq h.rd

structure Filled (size : Nat) (s t : Cbuf) (j : Nat) (bs : List UInt8) : Prop where
  wr : t.wrPtr = s.wrPtr
  contents : contents size t = contents size s
  kept : window t.data.byte size s.wrPtr j = window s.data.byte size s.wrPtr j
  here : window t.data.byte size (s.wrPtr + j) bs.length = bs

theorem store_filled (hs : IsSize size) (h : Ok size oom s) {off j : Nat} {bs : List UInt8}
    (ho : off ≡ s.wrPtr + j [MOD size]) (hoff : off + bs.length ≤ size)
    (hroom : used size s + j + bs.length ≤ size) :
    ∃ d, s.data.store off bs = some d ∧ d.len = size ∧ Filled size s { s with data := d } j bs := by
  obtain ⟨d, hd, hlen, hbyte⟩ := Block.store_eq_place bs (h.len ▸ hoff)
  rw [h.len] at hlen hbyte
  have hw : ∀ pos n, window d.byte size pos n = window (place s.data.byte size off bs) size pos n :=
    fun pos n => window_congr fun i _ => hbyte _ (Nat.mod_lt _ hs.pos)
  refine ⟨d, hd, hlen, rfl, ?_, ?_, ?_⟩
  · have hmod : off ≡ s.rdPtr + (used size s + j) [MOD size] := by
      rw [← Nat.add_assoc]
      exact ho.trans (h.wr_modEq.add_right j)
    have hb := place_window_before s.data.byte hmod hroom
    change window d.byte size s.rdPtr (used size s) = window s.data.byte size s.rdPtr (used size s)
    rw [hw, ← window_take _ size s.rdPtr (used size s + j) (used size s) (by omega), hb,
      window_take _ _ _ _ _ (by omega)]
  · change window d.byte size s.wrPtr j = _
    rw [hw, place_window_before _ ho (by omega)]
  · change window d.byte size (s.wrPtr + j) bs.length = bs
    rw [hw, ← window_modEq _ _ ho, place_window_self _ (by omega)]

/-- Moving the write pointer adds the bytes it passes to the contents. -/
theorem advanceWr_contents (hs : IsSize size) (h : Ok size oom s) {n : Nat} (hn : used size s + n ≤ size) :
    Ok size oom { s with wrPtr := ptrAdd size s.wrPtr n } ∧
    contents size { s with wrPtr := ptrAdd size s.wrPtr n } =
      contents size s ++ window s.data.byte size s.wrPtr n := by
  have hu : used size { s with wrPtr := ptrAdd size s.wrPtr n } = used size s + n :=
    distance_advanceWr hs h.wr h.rd hn
  refine ⟨⟨ptrAdd_lt hs h.wr (by omega), h.rd, hu ▸ hn, h.len, h.writeTmp, h.readTmp⟩, ?_⟩
  rw [contents, hu, window_add, window_modEq s.data.byte n h.wr_modEq]
  rfl

/-- Moving the read pointer drops the bytes it passes from the contents. -/
theorem advanceRd_contents (hs : IsSize size) (h : Ok size oom s) {n : Nat} (hn : n ≤ used size s) :
    Ok size oom { s with rdPtr := ptrAdd size s.rdPtr n } ∧
    contents size { s with rdPtr := ptrAdd size s.rdPtr n } = (contents size s).drop n := by
  have hle : n ≤ size := hn.trans h.fill
  have hu : used size { s with rdPtr := ptrAdd size s.rdPtr n } = used size s - n :=
    distance_advanceRd hs h.wr h.rd h.fill hn
  have hused := h.fill
  refine ⟨⟨h.wr, ptrAdd_lt hs h.rd hle, by omega, h.len, h.writeTmp, h.readTmp⟩, ?_⟩
  unfold contents
  rw [hu, window_drop _ _ _ _ _ hn]
  exact window_modEq _ _ (ptrAdd_modEq hs h.rd hle)

/-- A load of unread bytes that lie in one piece. -/
theorem load_contents (h : Ok size oom s) {off j n : Nat} (ho : off ≡ s.rdPtr + j [MOD size])
    (hoff : off + n ≤ size) (hn : j + n ≤ used size s) :
    s.data.load off n = some (((contents size s).drop j).take n) := by
  rw [Block.load_eq (by rw [h.len]; exact hoff), contents, window_drop _ _ _ _ _ (by omega),
    window_take _ _ _ _ _ (by omega)]
  rcases Nat.eq_zero_or_pos n with rfl | hpos
  · simp
  · have hmod : off % size = off := Nat.mod_eq_of_lt (by omega)
    rw [← window_modEq _ n ho, window_contiguous _ (by omega), hmod]

def levelIn (size : Nat) (s : Cbuf) : Nat :=
  if s.wrPtr = s.rdPtr ^^^ size then size else levelOf size s.wrPtr s.rdPtr

theorem fillLevel_run (size : Nat) (s : Cbuf) : (fillLevel size).run s = some (levelIn size s, s) := by
  simp only [fillLevel, isFull, loadWr, loadRd, Prog.run_bind, Prog.run_atomic, Option.bind_some, Prog.run_pure,
    Prog.run_ite, beq_iff_eq]
  unfold levelIn
  split <;> rfl

theorem freeLevel_run (size : Nat) (s : Cbuf) :
    (freeLevel size).run s = some (sizeSub size (levelIn size s), s) := by
  simp only [freeLevel, Prog.run_bind, fillLevel_run, Option.bind_some, Prog.run_pure]

theorem levelIn_le (hs : IsSize size) (s : Cbuf) : levelIn size s ≤ size := by
  unfold levelIn
  split
  · exact le_rfl
  · exact (levelOf_lt hs _ _).le

theorem levelIn_eq_used (hs : IsSize size) (h : Ok size oom s) : levelIn size s = used size s := by
  have hfull := full_iff hs h.wr h.rd
  unfold levelIn
  split
  · exact (hfull.mp ‹_›).symm
  · rw [levelOf_eq hs h.wr h.rd h.fill, if_neg (mt hfull.mpr ‹_›)]
    rfl

end Glip.CircularBuffer
