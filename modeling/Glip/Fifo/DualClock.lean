import Glip.Fifo.Prefetch
import Glip.Foundation.GrayCode
import Mathlib.Logic.Function.Basic

/-! The FIFO with two clocks: fifo_dualclock_standard.sv, whose two sides know each
other's pointer only as a Gray code that is two cycles old, and fifo_dualclock_fwft.sv
around it. `DEPTH` is `2 ^ aw`. -/
namespace Glip.Fifo
open Foundation
variable {aw : Nat} {α : Type}

def grayConv (x : BitVec aw) : BitVec aw := x ^^^ x >>> 1

structure WriteSide (aw : Nat) where
  wrAddr : BitVec aw
  wrAddrGray : BitVec aw
  rdAddrGrayWr : BitVec aw
  rdAddrGrayWrR : BitVec aw
  full : Bool
  progFullPart : List Bool

structure ReadSide (aw : Nat) (α : Type) where
  rdAddr : BitVec aw
  rdAddrGray : BitVec aw
  wrAddrGrayRd : BitVec aw
  wrAddrGrayRdR : BitVec aw
  empty : Bool
  dout : α

namespace WriteSide

/-- `prog_full`; the parameter `PROG_FULL` is `reserve`. -/
def progFull (reserve : Nat) (s : WriteSide aw) : Bool :=
  if reserve = 0 then s.full else s.progFullPart.any id || s.full

/-- The registers after an edge of `wr_clk`; `rdAddrGray` is what the first register of
the synchroniser takes of the other side. -/
def next (reserve : Nat) (s : WriteSide aw) (rst wrEn : Bool) (rdAddrGray : BitVec aw) : WriteSide aw where
  wrAddr := if rst then 0 else if wrEn then s.wrAddr + 1 else s.wrAddr
  wrAddrGray := if rst then 0 else if wrEn then grayConv (s.wrAddr + 1) else s.wrAddrGray
  rdAddrGrayWr := if rst then 0 else rdAddrGray
  rdAddrGrayWrR := if rst then 0 else s.rdAddrGrayWr
  full :=
    if rst then false
    else if wrEn then grayConv (s.wrAddr + 2) == s.rdAddrGrayWrR
    else s.full && grayConv (s.wrAddr + 1) == s.rdAddrGrayWrR
  progFullPart := (List.range (reserve + 1)).map fun i =>
    !rst && grayConv (s.wrAddr + BitVec.ofNat aw i + 2) == s.rdAddrGrayWrR

end WriteSide

namespace ReadSide

def next (s : ReadSide aw α) (rst rdEn : Bool) (wrAddrGray : BitVec aw) (mem : BitVec aw → α) : ReadSide aw α where
  rdAddr := if rst then 0 else if rdEn then s.rdAddr + 1 else s.rdAddr
  rdAddrGray := if rst then 0 else if rdEn then grayConv (s.rdAddr + 1) else s.rdAddrGray
  wrAddrGrayRd := if rst then 0 else wrAddrGray
  wrAddrGrayRdR := if rst then 0 else s.wrAddrGrayRd
  empty :=
    if rst then true
    else if rdEn then grayConv (s.rdAddr + 1) == s.wrAddrGrayRdR
    else s.empty && grayConv s.rdAddr == s.wrAddrGrayRdR
  dout := if rdEn then mem s.rdAddr else s.dout

end ReadSide

structure DualClock (aw : Nat) (α : Type) where
  wr : WriteSide aw
  rd : ReadSide aw α
  mem : BitVec aw → α
  prefetch : Prefetch α

structure WriteEdge (aw : Nat) (α : Type) where
  wrRst : Bool
  wrEn : Bool
  din : α
  rdAddrGray : BitVec aw

structure ReadEdge (aw : Nat) where
  rdRst : Bool
  rdEn : Bool
  wrAddrGray : BitVec aw

namespace DualClock
variable [OfNat α 0] (reserve : Nat) (s : DualClock aw α) (w : Option (WriteEdge aw α)) (r : Option (ReadEdge aw))

def full : Bool := s.wr.full

def empty : Bool := s.prefetch.empty

def next : DualClock aw α where
  wr := match w with
    | some i => s.wr.next reserve i.wrRst (i.wrEn && !s.full) i.rdAddrGray
    | none => s.wr
  rd := match r with
    | some i => s.rd.next i.rdRst (s.prefetch.fifoRdEn s.rd.empty) i.wrAddrGray s.mem
    | none => s.rd
  mem := match w with
    | some i => if i.wrEn && !s.full then Function.update s.mem s.wr.wrAddr i.din else s.mem
    | none => s.mem
  prefetch := match r with
    | some i => if i.rdRst then Prefetch.reset 0 else s.prefetch.next i.rdEn s.rd.empty s.rd.dout
    | none => s.prefetch

def accepts : List α := match w with
  | some i => if i.wrEn && !s.full then [i.din] else []
  | none => []

def delivers : List α := match r with
  | some i => s.prefetch.delivers i.rdEn
  | none => []

/-- The synchronisers sample the pointer of the other side; each bit of a pointer that
changes at the same time may be taken before or after the change. -/
structure Sampled : Prop where
  rdAddrGray : ∀ i ∈ w, Between s.rd.rdAddrGray (s.next reserve w r).rd.rdAddrGray i.rdAddrGray
  wrAddrGray : ∀ i ∈ r, Between s.wr.wrAddrGray (s.next reserve w r).wr.wrAddrGray i.wrAddrGray

instance : Decidable (s.Sampled reserve w r) :=
  decidable_of_iff (_ ∧ _) ⟨fun h => ⟨h.1, h.2⟩, fun h => ⟨h.rdAddrGray, h.wrAddrGray⟩⟩

end DualClock

/-! The pointers as counts of the words that have been written and read since the reset. -/

structure WriteMarks where
  wrote : Nat
  /-- the read pointers in the registers of the synchroniser, the second one older -/
  seen : Nat
  seenR : Nat
  /-- the read pointer that `full` was computed with -/
  used : Nat

structure ReadMarks where
  read : Nat
  seen : Nat
  seenR : Nat
  used : Nat

structure WriteSide.At (s : WriteSide aw) (m : WriteMarks) : Prop where
  wrAddr : s.wrAddr = BitVec.ofNat aw m.wrote
  wrAddrGray : s.wrAddrGray = gray (BitVec.ofNat aw m.wrote)
  rdAddrGrayWr : s.rdAddrGrayWr = gray (BitVec.ofNat aw m.seen)
  rdAddrGrayWrR : s.rdAddrGrayWrR = gray (BitVec.ofNat aw m.seenR)
  used_le : m.used ≤ m.seenR
  seenR_le : m.seenR ≤ m.seen
  seen_le : m.seen ≤ m.wrote
  room : m.wrote < m.used + 2 ^ aw
  full : s.full = true ↔ m.wrote + 1 = m.used + 2 ^ aw

structure ReadSide.At (s : ReadSide aw α) (m : ReadMarks) : Prop where
  rdAddr : s.rdAddr = BitVec.ofNat aw m.read
  rdAddrGray : s.rdAddrGray = gray (BitVec.ofNat aw m.read)
  wrAddrGrayRd : s.wrAddrGrayRd = gray (BitVec.ofNat aw m.seen)
  wrAddrGrayRdR : s.wrAddrGrayRdR = gray (BitVec.ofNat aw m.seenR)
  read_le : m.read ≤ m.used
  used_le : m.used ≤ m.seenR
  seenR_le : m.seenR ≤ m.seen
  empty : s.empty = true ↔ m.read = m.used

private theorem grayConv_eq_iff {a b : Nat} (hab : a ≤ b) (hnear : b < a + 2 ^ aw) {x g : BitVec aw}
    (hx : x = BitVec.ofNat aw a) (hg : g = gray (BitVec.ofNat aw b)) : (grayConv x == g) = true ↔ a = b := by
  rw [beq_iff_eq, hx, hg, ← ofNat_inj_near hab hnear]
  exact gray_inj

theorem ofNat_turn (a : Nat) : BitVec.ofNat aw (a + 2 ^ aw) = BitVec.ofNat aw a := by
  apply BitVec.eq_of_toNat_eq
  simp

namespace WriteSide
variable {s : WriteSide aw} {m : WriteMarks} {wrEn : Bool} {k reserve : Nat} {v : BitVec aw}

/-- `full` and the parts of `prog_full` are computed alike. -/
private theorem At.compare (h : s.At m) (i : Nat) (hi : m.wrote + i ≤ m.seenR + 2 ^ aw) (hpos : 0 < i) :
    (grayConv (s.wrAddr + BitVec.ofNat aw i) == s.rdAddrGrayWrR) = true ↔ m.wrote + i = m.seenR + 2 ^ aw := by
  have hseen := h.seenR_le
  have hle := h.seen_le
  refine grayConv_eq_iff hi (by omega) ?_ ?_
  · rw [h.wrAddr, BitVec.ofNat_add]
  · rw [h.rdAddrGrayWrR, ofNat_turn]

/-- An edge moves the synchroniser on and writes, if it may. -/
theorem At.next (h : s.At m) (hen : wrEn = true → s.full = false) (hk : m.seen ≤ k) (hle : k ≤ m.wrote)
    (hv : v = gray (BitVec.ofNat aw k)) :
    (s.next reserve false wrEn v).At ⟨m.wrote + wrEn.toNat, k, m.seen, m.seenR⟩ := by
  have hroom := h.room
  have hused := h.used_le
  have hseenR := h.seenR_le
  have hfull := h.full
  have hwrote : wrEn = true → m.wrote + 1 < m.used + 2 ^ aw := by
    intro hw
    have : ¬m.wrote + 1 = m.used + 2 ^ aw := fun heq => by simp [hfull.mpr heq] at hen; simp [hen] at hw
    omega
  constructor
  case wrAddr =>
    cases wrEn
    · exact h.wrAddr
    · simp [WriteSide.next, h.wrAddr, BitVec.ofNat_add]
  case wrAddrGray =>
    cases wrEn
    · exact h.wrAddrGray
    · rw [Bool.toNat_true, ofNat_add_one, ← h.wrAddr]
      rfl
  case rdAddrGrayWr => exact hv
  case rdAddrGrayWrR => exact h.rdAddrGrayWr
  case used_le => exact h.seenR_le
  case seenR_le => exact hk
  case seen_le => exact Nat.le_add_right_of_le hle
  case room =>
    cases wrEn
    · dsimp only [Bool.toNat_false]
      omega
    · have := hwrote rfl
      dsimp only [Bool.toNat_true]
      omega
  case full =>
    cases wrEn
    · have hone := h.compare 1 (by omega) Nat.one_pos
      calc (s.next reserve false false v).full = true
          ↔ s.full = true ∧ (grayConv (s.wrAddr + 1) == s.rdAddrGrayWrR) = true := Bool.and_eq_true_iff
        _ ↔ m.wrote + 1 = m.used + 2 ^ aw ∧ m.wrote + 1 = m.seenR + 2 ^ aw := and_congr hfull hone
        _ ↔ m.wrote + 1 = m.seenR + 2 ^ aw := by omega
    · have := hwrote rfl
      exact h.compare 2 (by omega) Nat.two_pos

/-- While `prog_full` is low there is room for as many words as it announces, and for
two more. -/
theorem At.next_progFull (h : s.At m) (hen : wrEn = true → s.full = false) (hk : m.seen ≤ k) (hle : k ≤ m.wrote)
    (hv : v = gray (BitVec.ofNat aw k)) (hp : (s.next reserve false wrEn v).progFull reserve = false) :
    m.wrote + wrEn.toNat + reserve + 2 ≤ m.seenR + 2 ^ aw := by
  have hnext : (s.next reserve false wrEn v).At _ := h.next hen hk hle hv
  have hroom := hnext.room
  have hfull := hnext.full
  have he := wrEn.toNat_le
  obtain ⟨hnot, hpart⟩ : (s.next reserve false wrEn v).full = false ∧ (reserve ≠ 0 → ∀ i ≤ reserve,
      (grayConv (s.wrAddr + BitVec.ofNat aw i + 2) == s.rdAddrGrayWrR) = false) := by
    unfold WriteSide.progFull at hp
    split at hp
    case isTrue h0 => exact ⟨hp, fun hne => absurd h0 hne⟩
    case isFalse =>
      rw [Bool.or_eq_false_iff, List.any_eq_false] at hp
      refine ⟨hp.2, fun _ i hi => Bool.eq_false_iff.mpr fun heq => ?_⟩
      exact hp.1 true (List.mem_map.mpr ⟨i, List.mem_range.mpr (by omega), heq⟩) rfl
  by_contra hlt
  -- the part for the number of words that there is room for is high
  obtain ⟨i, hi⟩ : ∃ i, m.wrote + i + 2 = m.seenR + 2 ^ aw := by
    refine ⟨m.seenR + 2 ^ aw - m.wrote - 2, ?_⟩
    rw [hnot] at hfull
    simp only [Bool.false_eq_true, false_iff] at hfull
    dsimp only at hroom hfull
    omega
  rw [hnot] at hfull
  simp only [Bool.false_eq_true, false_iff] at hfull
  dsimp only at hroom hfull
  have hcompare := (h.compare (i + 2) (by omega) (by omega)).mpr (by omega)
  rw [BitVec.ofNat_add, ← BitVec.add_assoc] at hcompare
  have := hpart (by omega) i (by omega)
  exact Bool.false_ne_true (this.symm.trans hcompare)

end WriteSide

namespace ReadSide
variable {s : ReadSide aw α} {m : ReadMarks} {rdEn : Bool} {k : Nat} {v : BitVec aw} {mem : BitVec aw → α}

/-- An edge moves the synchroniser on and reads, if it may. -/
theorem At.next (h : s.At m) (hen : rdEn = true → s.empty = false) (hk : m.seen ≤ k)
    (hnear : m.seenR < m.read + 2 ^ aw) (hv : v = gray (BitVec.ofNat aw k)) :
    (s.next false rdEn v mem).At ⟨m.read + rdEn.toNat, k, m.seen, m.seenR⟩ := by
  have hread := h.read_le
  have hused := h.used_le
  have hempty := h.empty
  have hmore : rdEn = true → m.read < m.used := by
    intro hr
    have : ¬m.read = m.used := fun heq => by simp [hempty.mpr heq] at hen; simp [hen] at hr
    omega
  constructor
  case rdAddr =>
    cases rdEn
    · exact h.rdAddr
    · simp [ReadSide.next, h.rdAddr, BitVec.ofNat_add]
  case rdAddrGray =>
    cases rdEn
    · exact h.rdAddrGray
    · rw [Bool.toNat_true, ofNat_add_one, ← h.rdAddr]
      rfl
  case wrAddrGrayRd => exact hv
  case wrAddrGrayRdR => exact h.wrAddrGrayRd
  case read_le =>
    cases rdEn
    · exact Nat.le_trans hread hused
    · have := hmore rfl
      dsimp only [Bool.toNat_true]
      omega
  case used_le => exact h.seenR_le
  case seenR_le => exact hk
  case empty =>
    cases rdEn
    · have hcompare := grayConv_eq_iff (Nat.le_trans hread hused) hnear h.rdAddr h.wrAddrGrayRdR
      calc (s.next false false v mem).empty = true
          ↔ s.empty = true ∧ (grayConv s.rdAddr == s.wrAddrGrayRdR) = true := Bool.and_eq_true_iff
        _ ↔ m.read = m.used ∧ m.read = m.seenR := and_congr hempty hcompare
        _ ↔ m.read = m.seenR := by omega
    · have := hmore rfl
      refine grayConv_eq_iff (x := s.rdAddr + 1) (by dsimp only [Bool.toNat_true]; omega)
        (by dsimp only [Bool.toNat_true]; omega) ?_ h.wrAddrGrayRdR
      rw [h.rdAddr, Bool.toNat_true, ofNat_add_one]
      rfl

end ReadSide
namespace DualClock
variable {s : DualClock aw α} {reserve : Nat} {w : Option (WriteEdge aw α)} {r : Option (ReadEdge aw)}

def reads (s : DualClock aw α) (r : Option (ReadEdge aw)) : Bool := r.isSome && s.prefetch.fifoRdEn s.rd.empty

/-- Both sides, the words that have been written since the reset, and those of them in
the memory. -/
structure At (s : DualClock aw α) (words : List α) (wm : WriteMarks) (rm : ReadMarks) : Prop where
  wr : s.wr.At wm
  rd : s.rd.At rm
  wrote : wm.wrote = words.length
  seen_le_read : wm.seen ≤ rm.read
  seen_le_wrote : rm.seen ≤ wm.wrote
  mem : ∀ i (h : i < words.length), rm.read ≤ i → s.mem (BitVec.ofNat aw i) = words[i]

variable {words : List α} {wm : WriteMarks} {rm : ReadMarks}

section At
variable (h : s.At words wm rm)
include h

theorem At.reads_lt (hr : s.reads r = true) : rm.read < wm.wrote := by
  have hempty : ¬s.rd.empty = true := by
    intro he
    simp [reads, Prefetch.fifoRdEn, he] at hr
  have := h.rd.read_le
  have := h.rd.used_le
  have := h.rd.seenR_le
  have := h.seen_le_wrote
  have : ¬rm.read = rm.used := mt h.rd.empty.mpr hempty
  omega

theorem At.near : wm.wrote < rm.read + 2 ^ aw := by
  have := h.wr.room
  have := h.wr.used_le
  have := h.wr.seenR_le
  have := h.seen_le_read
  omega

variable [OfNat α 0]

theorem At.next_rdAddrGray (hr : ∀ i ∈ r, i.rdRst = false) :
    (s.next reserve w r).rd.rdAddrGray = gray (BitVec.ofNat aw (rm.read + (s.reads r).toNat)) := by
  cases r with
  | none => exact h.rd.rdAddrGray
  | some i =>
    simp only [DualClock.next, ReadSide.next, hr i rfl, reads, Option.isSome_some, Bool.true_and,
      Bool.false_eq_true, if_false]
    cases s.prefetch.fifoRdEn s.rd.empty
    · exact h.rd.rdAddrGray
    · rw [Bool.toNat_true, ofNat_add_one, ← h.rd.rdAddr]
      rfl

theorem At.next_wrAddrGray (hw : ∀ i ∈ w, i.wrRst = false) :
    (s.next reserve w r).wr.wrAddrGray = gray (BitVec.ofNat aw (wm.wrote + (s.accepts w).length)) := by
  cases w with
  | none => exact h.wr.wrAddrGray
  | some i =>
    simp only [DualClock.next, WriteSide.next, hw i rfl, accepts, Bool.false_eq_true, if_false]
    cases i.wrEn && !s.full
    · exact h.wr.wrAddrGray
    · change grayConv (s.wr.wrAddr + 1) = gray (BitVec.ofNat aw (wm.wrote + 1))
      rw [ofNat_add_one, ← h.wr.wrAddr]
      rfl

omit h [OfNat α 0] in
theorem length_accepts (i : WriteEdge aw α) : (s.accepts (some i)).length = (i.wrEn && !s.full).toNat := by
  cases he : i.wrEn && !s.full <;> simp [accepts, he]

omit h [OfNat α 0] in
private theorem not_full {i : WriteEdge aw α} (hen : (i.wrEn && !s.full) = true) : s.wr.full = false := by
  simpa [full] using (Bool.and_eq_true_iff.mp hen).2

/-- An edge of `wr_clk`: the synchroniser has seen `k` reads of the other side. -/
theorem At.next_wr {i : WriteEdge aw α} (hrst : i.wrRst = false) {k : Nat} (hk : rm.read ≤ k)
    (hle : k ≤ wm.wrote) (hv : i.rdAddrGray = gray (BitVec.ofNat aw k)) :
    (s.next reserve (some i) r).wr.At ⟨wm.wrote + (s.accepts (some i)).length, k, wm.seen, wm.seenR⟩ := by
  rw [length_accepts]
  simp only [DualClock.next, hrst]
  exact h.wr.next not_full (Nat.le_trans h.seen_le_read hk) hle hv

/-- `prog_full` is low only with room for the words that it announces, and for two more. -/
theorem At.next_wr_progFull {i : WriteEdge aw α} (hrst : i.wrRst = false) {k : Nat} (hk : rm.read ≤ k)
    (hle : k ≤ wm.wrote) (hv : i.rdAddrGray = gray (BitVec.ofNat aw k))
    (hp : (s.next reserve (some i) r).wr.progFull reserve = false) :
    wm.wrote + (s.accepts (some i)).length + reserve + 2 ≤ wm.seenR + 2 ^ aw := by
  rw [length_accepts]
  simp only [DualClock.next, hrst] at hp
  exact h.wr.next_progFull not_full (Nat.le_trans h.seen_le_read hk) hle hv hp

/-- An edge of `rd_clk`: the synchroniser has seen `k` writes of the other side. -/
theorem At.next_rd {i : ReadEdge aw} (hrst : i.rdRst = false) {k : Nat} (hk : wm.wrote ≤ k)
    (hv : i.wrAddrGray = gray (BitVec.ofNat aw k)) :
    (s.next reserve w (some i)).rd.At ⟨rm.read + (s.reads (some i)).toNat, k, rm.seen, rm.seenR⟩ := by
  have hen : s.prefetch.fifoRdEn s.rd.empty = true → s.rd.empty = false := by
    cases he : s.rd.empty <;> simp [Prefetch.fifoRdEn]
  have hnear := h.near
  have hseen := h.seen_le_wrote
  have hseenR := h.rd.seenR_le
  simp only [DualClock.next, hrst, reads, Option.isSome_some, Bool.true_and]
  exact h.rd.next hen (Nat.le_trans hseen hk) (by omega) hv

/-- What is in the memory after an edge. -/
theorem At.next_mem (j : Nat) (hj : j < (words ++ s.accepts w).length)
    (hread : rm.read + (s.reads r).toNat ≤ j) :
    (s.next reserve w r).mem (BitVec.ofNat aw j) = (words ++ s.accepts w)[j] := by
  have hwrote := h.wrote
  have hnear := h.near
  have hkept (hlt : j < words.length) : s.mem (BitVec.ofNat aw j) = (words ++ s.accepts w)[j] := by
    rw [h.mem j hlt (by omega), List.getElem_append_left hlt]
  cases w with
  | none => exact hkept (by simpa [accepts] using hj)
  | some i =>
    cases he : i.wrEn && !s.full with
    | false =>
      have hnone : s.accepts (some i) = [] := by simp [accepts, he]
      simp only [DualClock.next, he, Bool.false_eq_true, if_false]
      exact hkept (by simpa [hnone] using hj)
    | true =>
      have hone : s.accepts (some i) = [i.din] := by simp [accepts, he]
      have hj' : j < words.length + 1 := by simpa [hone] using hj
      simp only [DualClock.next, he, if_true, h.wr.wrAddr]
      by_cases hlast : j = words.length
      · subst hlast
        rw [hwrote, Function.update_self]
        simp [hone]
      · have hne : BitVec.ofNat aw j ≠ BitVec.ofNat aw wm.wrote :=
          fun heq => hlast (by rw [← hwrote]; exact (ofNat_inj_near (by omega) (by omega)).mp heq)
        rw [Function.update_of_ne hne]
        exact hkept (by omega)

end At
end DualClock
end Glip.Fifo
