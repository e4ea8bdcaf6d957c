import Glip.Fifo.DualClockQueue

/-! `prog_full` and `prog_empty` of fifo_dualclock_fwft.sv against the words that it still takes and gives. -/
namespace Glip.Fifo
open Foundation
variable {aw : Nat} {α : Type}

def Prefetch.count (p : Prefetch α) : Nat := p.doutValid.toNat + p.middleValid.toNat + p.fifoValid.toNat

theorem Prefetch.length_contents (p : Prefetch α) (fifoDout : α) : (p.contents fifoDout).length = p.count := by
  obtain ⟨fv, mv, dv, middle, dout⟩ := p
  cases fv <;> cases mv <;> cases dv <;> rfl

theorem Prefetch.count_le (p : Prefetch α) : p.count ≤ 3 := by
  have hd := p.doutValid.toNat_le
  have hm := p.middleValid.toNat_le
  have hf := p.fifoValid.toNat_le
  rw [count]
  omega

structure ProgFifo (aw : Nat) (α : Type) where
  fifo : DualClock aw α
  progEmptyPart : List Bool

abbrev ClockEdges (aw : Nat) (α : Type) := Option (WriteEdge aw α) × Option (ReadEdge aw)

def innerProgEmpty (pe : Nat) : Nat := if pe ≥ 2 then pe - 2 else 0

namespace ProgFifo

def next [OfNat α 0] (pf pe : Nat) (f : ProgFifo aw α) (e : ClockEdges aw α) : ProgFifo aw α where
  fifo := f.fifo.next pf e.1 e.2
  progEmptyPart := match e.2 with
    | some i => (List.range (innerProgEmpty pe + 1)).map fun k =>
        !i.rdRst && grayConv (f.fifo.rd.rdAddr + BitVec.ofNat aw k + 1) == f.fifo.rd.wrAddrGrayRdR
    | none => f.progEmptyPart

section
variable (pf pe : Nat) (f : ProgFifo aw α)

def progFull : Bool := f.fifo.wr.progFull pf

def fifoProgEmpty : Bool :=
  if innerProgEmpty pe = 0 then f.fifo.rd.empty else f.progEmptyPart.any id || f.fifo.rd.empty

def progEmpty : Bool :=
  if pe = 0 then f.fifo.empty
  else if pe = 1 then
    f.fifo.prefetch.doutValid && !f.fifo.prefetch.middleValid && !f.fifo.prefetch.fifoValid || f.fifo.empty
  else f.fifoProgEmpty pe

structure IsReset [OfNat α 0] : Prop where
  fifo : f.fifo.IsReset
  progFullPart : f.fifo.wr.progFullPart.any id = false
  progEmptyPart : f.progEmptyPart.any id = false

end
end ProgFifo

section Runs
variable [OfNat α 0] (pf pe : Nat)

def progFifoEdges : Transducer (ProgFifo aw α) (ClockEdges aw α) (FifoEvent α) where
  next f e := f.next pf pe e
  emit f e := (f.fifo.accepts e.1).map .accepted ++ (f.fifo.delivers e.2).map .delivered

def readsIn : ProgFifo aw α → List (ClockEdges aw α) → Nat
  | _, [] => 0
  | f, e :: es => (f.fifo.reads e.2).toNat + readsIn (f.next pf pe e) es

/-- Whether the last edge of `wr_clk` accepted a word, and the last one of `rd_clk` read one out of the memory. -/
def wroteLast : Bool → ProgFifo aw α → List (ClockEdges aw α) → Bool
  | b, _, [] => b
  | b, f, e :: es => wroteLast (if e.1.isSome then !(f.fifo.accepts e.1).isEmpty else b) (f.next pf pe e) es

def readLast : Bool → ProgFifo aw α → List (ClockEdges aw α) → Bool
  | b, _, [] => b
  | b, f, e :: es => readLast (if e.2.isSome then f.fifo.reads e.2 else b) (f.next pf pe e) es

end Runs

def wrEdges (es : List (ClockEdges aw α)) : Nat := es.countP fun e => e.1.isSome
def rdEdges (es : List (ClockEdges aw α)) : Nat := es.countP fun e => e.2.isSome

/-- The flags of the last edges against the counts, whether these edges wrote and read, and
the write pointer that `empty` of `u_fifo` was computed with one edge before. -/
structure ProgFifo.FlagsAt (pf pe : Nat) (f : ProgFifo aw α) (words : List α) (wm : WriteMarks) (rm : ReadMarks)
    (older : Nat) (wrote read : Bool) : Prop where
  counts : f.fifo.At words wm rm
  /-- the registers behind the output are without a word only when nothing was there to read -/
  drained : f.fifo.prefetch.middleValid = false → f.fifo.prefetch.fifoValid = false → rm.read = older
  progFull : f.fifo.wr.progFullPart.any id = true ↔
    ∃ i < pf + 1, wm.wrote + i + 2 = wm.used + 2 ^ aw + wrote.toNat
  progEmpty : f.progEmptyPart.any id = true ↔
    ∃ i < innerProgEmpty pe + 1, rm.read + i + 1 = rm.used + read.toNat

/-- `n` edges of `rd_clk` after the first `writes` writes were made, with one edge more before
`prog_empty` has got to know of them when it is made of the registers alone. -/
def ReadMarks.KnownBefore (rm : ReadMarks) (wm : WriteMarks) (older writes n : Nat) : Prop :=
  rm.Known wm writes n ∧ (4 ≤ n → writes ≤ older)

/-- A comparison of addresses as Gray codes. -/
theorem grayConv_near {a b : Nat} {x g : BitVec aw} (hx : x = BitVec.ofNat aw a) (hg : g = gray (BitVec.ofNat aw b))
    (hab : a < b + 2 ^ aw) (hba : b < a + 2 ^ aw) : (grayConv x == g) = true ↔ a = b := by
  have heq : (grayConv x == g) = true ↔ BitVec.ofNat aw a = BitVec.ofNat aw b := by
    rw [beq_iff_eq, hx, hg]
    exact gray_inj
  rw [heq]
  obtain hle | hle := Nat.le_total a b
  · exact ofNat_inj_near hle hba
  · rw [eq_comm, eq_comm (a := a)]
    exact ofNat_inj_near hle hab

/-- A register for each of some addresses. -/
theorem any_parts {n : Nat} {part : Nat → Bool} : ((List.range n).map part).any id = true ↔ ∃ i < n, part i = true := by
  simp

section Step
variable {pf pe : Nat} {f : ProgFifo aw α} {words : List α} {wm : WriteMarks} {rm : ReadMarks} {older : Nat}
  {wrote read : Bool} {w : Option (WriteEdge aw α)} {r : Option (ReadEdge aw)}

/-- What `prog_full` is computed with at an edge of `wr_clk`. -/
theorem DualClock.At.fullPart {s : DualClock aw α} (h : s.At words wm rm) {i : Nat} (hi : i + 2 ≤ 2 ^ aw) :
    (grayConv (s.wr.wrAddr + BitVec.ofNat aw i + 2) == s.wr.rdAddrGrayWrR) = true ↔
      wm.wrote + i + 2 = wm.seenR + 2 ^ aw := by
  have hroom := h.wr.room
  have hused := h.wr.used_le
  have hseen := h.wr.seenR_le
  have hle := h.wr.seen_le
  refine grayConv_near ?_ ?_ (by omega) (by omega)
  · rw [h.wr.wrAddr, BitVec.ofNat_add, BitVec.ofNat_add]
    rfl
  · rw [h.wr.rdAddrGrayWrR, ofNat_turn]

/-- And `prog_empty` at an edge of `rd_clk`. -/
theorem DualClock.At.emptyPart {s : DualClock aw α} (h : s.At words wm rm) {i : Nat} (hi : i + 1 < 2 ^ aw) :
    (grayConv (s.rd.rdAddr + BitVec.ofNat aw i + 1) == s.rd.wrAddrGrayRdR) = true ↔ rm.read + i + 1 = rm.seenR := by
  have hnear := h.near
  have hseen := h.seen_le_wrote
  have hseenR := h.rd.seenR_le
  have hused := h.rd.used_le
  have hread := h.rd.read_le
  refine grayConv_near ?_ h.rd.wrAddrGrayRdR (by omega) (by omega)
  rw [h.rd.rdAddr, BitVec.ofNat_add, BitVec.ofNat_add]
  rfl

def ProgFifo.held (f : ProgFifo aw α) (wm : WriteMarks) (rm : ReadMarks) : Nat :=
  f.fifo.prefetch.count + (wm.wrote - rm.read)

theorem DualClock.At.length_inside {s : DualClock aw α} (h : s.At words wm rm) :
    (s.inside words rm.read).length = s.prefetch.count + (wm.wrote - rm.read) := by
  rw [DualClock.inside, List.length_append, Prefetch.length_contents, List.length_drop, h.wrote]

/-- The registers behind the output run empty only while nothing can be read. -/
theorem Prefetch.next_drained (p : Prefetch α) (rdEn fifoEmpty : Bool) (fifoDout : α)
    (hm : (p.next rdEn fifoEmpty fifoDout).middleValid = false)
    (hf : (p.next rdEn fifoEmpty fifoDout).fifoValid = false) : fifoEmpty = true := by
  obtain ⟨fv, mv, dv, middle, dout⟩ := p
  cases fifoEmpty with
  | true => rfl
  | false =>
    cases fv <;> cases mv <;> cases dv <;> cases rdEn <;>
      first | exact Bool.false_ne_true hm.symm |>.elim | exact Bool.false_ne_true hf.symm |>.elim

/-- `prog_full` high: the write side knows of room for `PROG_FULL + 1` words at most. -/
theorem ProgFifo.FlagsAt.progFull_high (h : f.FlagsAt pf pe words wm rm older wrote read) (hpf : 1 ≤ pf)
    (hhigh : f.progFull pf = true) : wm.used + 2 ^ aw + wrote.toNat ≤ wm.wrote + pf + 2 := by
  have hb := wrote.toNat_le
  rw [ProgFifo.progFull, WriteSide.progFull, if_neg (by omega), Bool.or_eq_true, h.progFull, h.counts.wr.full] at hhigh
  obtain ⟨i, hi, heq⟩ | hfull := hhigh <;> omega

/-- `prog_full` low: it knows of room for `PROG_FULL + 1` words at least. -/
theorem ProgFifo.FlagsAt.progFull_low (h : f.FlagsAt pf pe words wm rm older wrote read) (hpf : 1 ≤ pf)
    (hlow : f.progFull pf = false) : wm.wrote + pf + 2 ≤ wm.used + 2 ^ aw := by
  have hroom := h.counts.wr.room
  have hb := wrote.toNat_le
  rw [ProgFifo.progFull, WriteSide.progFull, if_neg (by omega), Bool.or_eq_false_iff, Bool.eq_false_iff,
    Bool.eq_false_iff, Ne, Ne, h.progFull, h.counts.wr.full] at hlow
  obtain ⟨hpart, hfull⟩ := hlow
  by_contra hlt
  exact hpart ⟨wm.used + 2 ^ aw + wrote.toNat - wm.wrote - 2, by omega, by omega⟩

/-- The words that the read side can know of while `prog_empty` is high. -/
def ProgFifo.readMargin (pe : Nat) (f : ProgFifo aw α) (read : Bool) : Nat :=
  if pe = 1 then 1
  else if pe = 2 then f.fifo.prefetch.count
  else f.fifo.prefetch.count + (pe - 1 - read.toNat)

theorem ProgFifo.FlagsAt.progEmpty_high (h : f.FlagsAt pf pe words wm rm older wrote read) (hpe : 1 ≤ pe)
    (hhigh : f.progEmpty pe = true) (hempty : f.fifo.empty = false) :
    f.fifo.prefetch.count + (if pe = 1 then older else rm.used) ≤ rm.read + f.readMargin pe read := by
  have hb := read.toNat_le
  rw [ProgFifo.progEmpty, if_neg (by omega), hempty, Bool.or_false] at hhigh
  rw [ProgFifo.readMargin]
  obtain rfl | hpe' := Nat.eq_or_lt_of_le hpe
  · rw [if_pos rfl, Bool.and_eq_true, Bool.and_eq_true, Bool.not_eq_true', Bool.not_eq_true'] at hhigh
    obtain ⟨⟨hd, hm⟩, hf⟩ := hhigh
    rw [if_pos rfl, if_pos rfl, h.drained hm hf, Prefetch.count, hd, hm, hf]
    exact Nat.le_of_eq (Nat.add_comm _ _)
  have hinner : innerProgEmpty pe = pe - 2 := if_pos hpe'
  rw [if_neg (by omega), ProgFifo.fifoProgEmpty, hinner] at hhigh
  rw [if_neg (by omega), if_neg (by omega)]
  obtain rfl | hpe'' := Nat.eq_or_lt_of_le hpe'
  · rw [if_pos rfl, h.counts.rd.empty] at hhigh
    rw [if_pos rfl, hhigh, Nat.add_comm]
  rw [if_neg (by omega), Bool.or_eq_true, h.progEmpty, h.counts.rd.empty, hinner] at hhigh
  rw [if_neg (by omega)]
  obtain ⟨i, hi, heq⟩ | hread := hhigh <;> omega

variable [OfNat α 0]

section Edge
variable (h : f.FlagsAt pf pe words wm rm older wrote read)
include h

theorem ProgFifo.FlagsAt.next_drained {i : ReadEdge aw} (hr : i.rdRst = false)
    (hm : (f.next pf pe (w, some i)).fifo.prefetch.middleValid = false)
    (hf : (f.next pf pe (w, some i)).fifo.prefetch.fifoValid = false) :
    rm.read + (f.fifo.reads (some i)).toNat = rm.used := by
  have hprefetch : (f.next pf pe (w, some i)).fifo.prefetch =
      f.fifo.prefetch.next i.rdEn f.fifo.rd.empty f.fifo.rd.dout := by
    simp [ProgFifo.next, DualClock.next, hr]
  rw [hprefetch] at hm hf
  have hempty := f.fifo.prefetch.next_drained _ _ _ hm hf
  have hnone : f.fifo.reads (some i) = false := by simp [DualClock.reads, Prefetch.fifoRdEn, hempty]
  rw [hnone]
  exact h.counts.rd.empty.mp hempty

theorem ProgFifo.FlagsAt.next_progFull (hpf : pf + 2 ≤ 2 ^ aw) {i : WriteEdge aw α} (hw : i.wrRst = false) :
    (f.next pf pe (some i, r)).fifo.wr.progFullPart.any id = true ↔
      ∃ k < pf + 1, wm.wrote + k + 2 = wm.seenR + 2 ^ aw := by
  have hparts : (f.next pf pe (some i, r)).fifo.wr.progFullPart = (List.range (pf + 1)).map fun k =>
      grayConv (f.fifo.wr.wrAddr + BitVec.ofNat aw k + 2) == f.fifo.wr.rdAddrGrayWrR := by
    simp [ProgFifo.next, DualClock.next, WriteSide.next, hw]
  rw [hparts, any_parts]
  exact exists_congr fun k => and_congr_right fun hk => h.counts.fullPart (by omega)

theorem ProgFifo.FlagsAt.next_progEmpty (hpe : innerProgEmpty pe + 1 < 2 ^ aw) {i : ReadEdge aw}
    (hr : i.rdRst = false) :
    (f.next pf pe (w, some i)).progEmptyPart.any id = true ↔
      ∃ k < innerProgEmpty pe + 1, rm.read + k + 1 = rm.seenR := by
  have hparts : (f.next pf pe (w, some i)).progEmptyPart = (List.range (innerProgEmpty pe + 1)).map fun k =>
      grayConv (f.fifo.rd.rdAddr + BitVec.ofNat aw k + 1) == f.fifo.rd.wrAddrGrayRdR := by
    simp [ProgFifo.next, hr]
  rw [hparts, any_parts]
  exact exists_congr fun k => and_congr_right fun hk => h.counts.emptyPart (by omega)

/-- An edge of one of the clocks, or of both. -/
theorem ProgFifo.FlagsAt.next (hpf : pf + 2 ≤ 2 ^ aw) (hpe : innerProgEmpty pe + 1 < 2 ^ aw)
    (hs : f.fifo.Sampled pf w r) (hw : ∀ i ∈ w, i.wrRst = false) (hr : ∀ i ∈ r, i.rdRst = false) :
    ∃ wm' rm' older', (f.next pf pe (w, r)).FlagsAt pf pe (words ++ f.fifo.accepts w) wm' rm' older'
        (if w.isSome then !(f.fifo.accepts w).isEmpty else wrote) (if r.isSome then f.fifo.reads r else read) ∧
      rm'.read = rm.read + (f.fifo.reads r).toNat ∧
      (f.fifo.delivers r).length + (f.next pf pe (w, r)).held wm' rm' = f.held wm rm + (f.fifo.accepts w).length ∧
      (∀ reads n, wm.Known rm reads n → wm'.Known rm' reads (n + w.isSome.toNat)) ∧
      ∀ writes n, rm.KnownBefore wm older writes n → rm'.KnownBefore wm' older' writes (n + r.isSome.toNat) := by
  obtain ⟨wm', rm', hat, hread, hused, hknown, hused', hknown'⟩ := h.counts.next hs hw hr
  have hwrote : wm'.wrote = wm.wrote + (f.fifo.accepts w).length := by
    rw [hat.wrote, h.counts.wrote, List.length_append]
  have hinside : f.fifo.delivers r ++ (f.fifo.next pf w r).inside (words ++ f.fifo.accepts w)
      (rm.read + (f.fifo.reads r).toNat) = f.fifo.inside words rm.read ++ f.fifo.accepts w := h.counts.next_inside hr
  have hqueue := congrArg List.length hinside
  rw [List.length_append, List.length_append, h.counts.length_inside, ← hread, hat.length_inside] at hqueue
  refine ⟨wm', rm', if r.isSome then rm.used else older, ⟨hat, ?_, ?_, ?_⟩, hread, hqueue, hknown, ?_⟩
  · cases r with
    | none =>
      rw [hread]
      exact h.drained
    | some i =>
      rw [hread]
      exact h.next_drained (hr i rfl)
  · cases w with
    | none =>
      rw [hwrote, hused]
      exact h.progFull
    | some i =>
      have hone : (f.fifo.accepts (some i)).length = (!(f.fifo.accepts (some i)).isEmpty).toNat := by
        cases he : i.wrEn && !f.fifo.full <;> simp [DualClock.accepts, he]
      rw [h.next_progFull hpf (hw i rfl), hwrote, hused, if_pos Option.isSome_some, if_pos Option.isSome_some, ← hone]
      exact exists_congr fun k => and_congr_right fun _ => by omega
  · cases r with
    | none =>
      rw [hread, hused']
      exact h.progEmpty
    | some i =>
      rw [h.next_progEmpty hpe (hr i rfl), hread, hused', if_pos Option.isSome_some, if_pos Option.isSome_some]
      exact exists_congr fun k => and_congr_right fun _ => by omega
  · rintro writes n ⟨hn, hbefore⟩
    refine ⟨hknown' writes n hn, fun hle => ?_⟩
    cases r with
    | none => exact hbefore hle
    | some i =>
      obtain ⟨k, rfl⟩ : ∃ k, n = k + 3 := ⟨n - 3, by rw [Option.isSome_some, Bool.toNat_true] at hle; omega⟩
      exact hn

end Edge

/-- A run. -/
theorem ProgFifo.FlagsAt.run (h : f.FlagsAt pf pe words wm rm older wrote read) (hpf : pf + 2 ≤ 2 ^ aw)
    (hpe : innerProgEmpty pe + 1 < 2 ^ aw) (es : List (ClockEdges aw α)) (hrun : f.fifo.Run pf es) :
    ∃ wm' rm' older', ((progFifoEdges pf pe).after f es).FlagsAt pf pe
        (words ++ acceptedIn ((progFifoEdges pf pe).emitted f es)) wm' rm' older' (wroteLast pf pe wrote f es)
        (readLast pf pe read f es) ∧
      rm'.read = rm.read + readsIn pf pe f es ∧
      (deliveredIn ((progFifoEdges pf pe).emitted f es)).length + ((progFifoEdges pf pe).after f es).held wm' rm' =
        f.held wm rm + (acceptedIn ((progFifoEdges pf pe).emitted f es)).length ∧
      (∀ reads n, wm.Known rm reads n → wm'.Known rm' reads (n + wrEdges es)) ∧
      ∀ writes n, rm.KnownBefore wm older writes n → rm'.KnownBefore wm' older' writes (n + rdEdges es) := by
  induction es generalizing f words wm rm older wrote read with
  | nil =>
    refine ⟨wm, rm, older, ?_, rfl, ?_, fun _ _ => id, fun _ _ => id⟩
    · rw [Transducer.emitted_nil, acceptedIn, List.filterMap_nil, List.append_nil]
      exact h
    · simp [acceptedIn, deliveredIn]
  | cons e es ih =>
    obtain ⟨hs, hw, hr, hrun⟩ := hrun
    obtain ⟨wm₁, rm₁, older₁, h₁, hread₁, hheld₁, hknown₁, hknown₁'⟩ := h.next hpf hpe hs hw hr
    obtain ⟨wm₂, rm₂, older₂, h₂, hread₂, hheld₂, hknown₂, hknown₂'⟩ := ih h₁ hrun
    have hstep : (f.fifo.delivers e.2).length + (f.next pf pe e).held wm₁ rm₁ =
        f.held wm rm + (f.fifo.accepts e.1).length := hheld₁
    have hrest : (deliveredIn ((progFifoEdges pf pe).emitted (f.next pf pe e) es)).length +
        ((progFifoEdges pf pe).after f (e :: es)).held wm₂ rm₂ =
        (f.next pf pe e).held wm₁ rm₁ + (acceptedIn ((progFifoEdges pf pe).emitted (f.next pf pe e) es)).length :=
      hheld₂
    have haccepted : acceptedIn ((progFifoEdges pf pe).emitted f (e :: es)) =
        f.fifo.accepts e.1 ++ acceptedIn ((progFifoEdges pf pe).emitted (f.next pf pe e) es) := by
      simp [progFifoEdges]
    have hdelivered : deliveredIn ((progFifoEdges pf pe).emitted f (e :: es)) =
        f.fifo.delivers e.2 ++ deliveredIn ((progFifoEdges pf pe).emitted (f.next pf pe e) es) := by
      simp [progFifoEdges]
    have hwr : wrEdges (e :: es) = e.1.isSome.toNat + wrEdges es := by
      rw [wrEdges, List.countP_cons]
      cases e.1.isSome <;> simp [wrEdges, Nat.add_comm]
    have hrd : rdEdges (e :: es) = e.2.isSome.toNat + rdEdges es := by
      rw [rdEdges, List.countP_cons]
      cases e.2.isSome <;> simp [rdEdges, Nat.add_comm]
    refine ⟨wm₂, rm₂, older₂, ?_, ?_, ?_, fun reads n hn => ?_, fun writes n hn => ?_⟩
    · rw [haccepted, ← List.append_assoc]
      exact h₂
    · rw [readsIn, hread₂, hread₁, Nat.add_assoc]
    · rw [haccepted, hdelivered, List.length_append, List.length_append, Nat.add_assoc]
      omega
    · rw [hwr, ← Nat.add_assoc]
      exact hknown₂ _ _ (hknown₁ _ _ hn)
    · rw [hrd, ← Nat.add_assoc]
      exact hknown₂' _ _ (hknown₁' _ _ hn)

section Later
variable (h : f.FlagsAt pf pe words wm rm older wrote read) (hpf : 1 ≤ pf) (hfit : pf + 2 ≤ 2 ^ aw)
  (hpe : innerProgEmpty pe + 1 < 2 ^ aw) (es : List (ClockEdges aw α)) (hrun : f.fifo.Run pf es)
include h hpf hfit hpe hrun

/-- Without a read the prefetch registers alone can make room. -/
theorem ProgFifo.FlagsAt.accepted_le (hhigh : f.progFull pf = true)
    (hnone : deliveredIn ((progFifoEdges pf pe).emitted f es) = []) :
    (acceptedIn ((progFifoEdges pf pe).emitted f es)).length + wm.used + wrote.toNat ≤
      rm.read + (pf + 1) + (3 - f.fifo.prefetch.count) := by
  obtain ⟨wm', rm', older', h', -, hheld, -⟩ := h.run hfit hpe es hrun
  have hroom := h.progFull_high hpf hhigh
  have hnear := h'.counts.near
  have hle : rm.read ≤ wm.wrote := h.counts.read_le (r := none)
  have hle' : rm'.read ≤ wm'.wrote := h'.counts.read_le (r := none)
  have hwrote : wm'.wrote = wm.wrote + (acceptedIn ((progFifoEdges pf pe).emitted f es)).length := by
    rw [h'.counts.wrote, List.length_append, h.counts.wrote]
  have hcount := Prefetch.count_le ((progFifoEdges pf pe).after f es).fifo.prefetch
  rw [hnone, ProgFifo.held, ProgFifo.held, List.length_nil] at hheld
  omega

/-- While the write side knows of room it is not full. -/
theorem ProgFifo.FlagsAt.lt_accepted (hlow : f.progFull pf = false)
    (hfull : ((progFifoEdges pf pe).after f es).fifo.full = true) :
    pf + 1 ≤ (acceptedIn ((progFifoEdges pf pe).emitted f es)).length := by
  obtain ⟨wm', rm', older', h', -, -, hknown, -⟩ := h.run hfit hpe es hrun
  have hroom := h.progFull_low hpf hlow
  have hused : wm.used ≤ wm'.used := by
    have hle := hknown wm.used 3 (Nat.le_refl _)
    rw [Nat.add_comm] at hle
    exact hle
  have hwrote : wm'.wrote = wm.wrote + (acceptedIn ((progFifoEdges pf pe).emitted f es)).length := by
    rw [h'.counts.wrote, List.length_append, h.counts.wrote]
  have := h'.counts.wr.full.mp hfull
  omega

omit hpf in
/-- What can be read without a write is inside. -/
theorem ProgFifo.FlagsAt.delivered_le (hpe' : 1 ≤ pe) (hhigh : f.progEmpty pe = true) (hempty : f.fifo.empty = false)
    (hnone : acceptedIn ((progFifoEdges pf pe).emitted f es) = []) :
    (deliveredIn ((progFifoEdges pf pe).emitted f es)).length + (if pe = 1 then older else rm.used) ≤
      wm.wrote + f.readMargin pe read := by
  obtain ⟨wm', rm', older', h', -, hheld, -⟩ := h.run hfit hpe es hrun
  have hmargin := h.progEmpty_high hpe' hhigh hempty
  have hle : rm.read ≤ wm.wrote := h.counts.read_le (r := none)
  rw [hnone, ProgFifo.held, ProgFifo.held, List.length_nil] at hheld
  omega

end Later

theorem ProgFifo.isReset_next {i : WriteEdge aw α} {j : ReadEdge aw} (hi : i.wrRst = true) (hj : j.rdRst = true) :
    (f.next pf pe (some i, some j)).IsReset := by
  refine ⟨DualClock.isReset_next hi hj, ?_, ?_⟩
  · simp [ProgFifo.next, DualClock.next, WriteSide.next, hi]
  · simp [ProgFifo.next, hj]

theorem ProgFifo.IsReset.flagsAt (h : f.IsReset) (pe : Nat) (hpf : pf + 2 < 2 ^ aw) (haw : 0 < aw) :
    f.FlagsAt pf pe [] ⟨0, 0, 0, 0⟩ ⟨0, 0, 0, 0⟩ 0 false false := by
  refine ⟨h.fifo.at haw, fun _ _ => rfl, ?_, ?_⟩
  · rw [h.progFullPart]
    simp only [Bool.false_eq_true, false_iff, Bool.toNat_false]
    rintro ⟨i, hi, heq⟩
    omega
  · rw [h.progEmptyPart]
    simp

end Step

section Results
variable [OfNat α 0] {pf pe : Nat}

theorem DualClock.run_append (pe : Nat) {s : ProgFifo aw α} {a b : List (ClockEdges aw α)} :
    s.fifo.Run pf (a ++ b) ↔ s.fifo.Run pf a ∧ ((progFifoEdges pf pe).after s a).fifo.Run pf b := by
  induction a generalizing s with
  | nil => simp [DualClock.Run]
  | cons e a ih =>
    have hnext : (s.next pf pe e).fifo = s.fifo.next pf e.1 e.2 := rfl
    have hafter : (progFifoEdges pf pe).after s (e :: a) = (progFifoEdges pf pe).after (s.next pf pe e) a := rfl
    rw [List.cons_append, DualClock.Run, DualClock.Run, ← hnext, ih, hafter, and_assoc, and_assoc, and_assoc]

theorem wroteLast_append (b : Bool) (f : ProgFifo aw α) (es₁ es₂ : List (ClockEdges aw α)) :
    wroteLast pf pe b f (es₁ ++ es₂) =
      wroteLast pf pe (wroteLast pf pe b f es₁) ((progFifoEdges pf pe).after f es₁) es₂ := by
  induction es₁ generalizing b f with
  | nil => rfl
  | cons e es₁ ih => exact ih _ _

theorem readLast_append (b : Bool) (f : ProgFifo aw α) (es₁ es₂ : List (ClockEdges aw α)) :
    readLast pf pe b f (es₁ ++ es₂) =
      readLast pf pe (readLast pf pe b f es₁) ((progFifoEdges pf pe).after f es₁) es₂ := by
  induction es₁ generalizing b f with
  | nil => rfl
  | cons e es₁ ih => exact ih _ _

/-- What `es₂` has left between the two sides of what was known before it. -/
theorem ProgFifo.IsReset.flagsAt_run {f₀ : ProgFifo aw α} (hreset : f₀.IsReset) (hpf : pf + 2 < 2 ^ aw)
    (hpe : innerProgEmpty pe + 1 < 2 ^ aw) (haw : 0 < aw) (es₁ es₂ : List (ClockEdges aw α))
    (hrun : f₀.fifo.Run pf (es₁ ++ es₂)) :
    ∃ words wm rm older, ((progFifoEdges pf pe).after f₀ (es₁ ++ es₂)).FlagsAt pf pe words wm rm older
        (wroteLast pf pe false f₀ (es₁ ++ es₂)) (readLast pf pe false f₀ (es₁ ++ es₂)) ∧
      (es₁ = [] ∨ 3 ≤ wrEdges es₂ → rm.read ≤ wm.used + readsIn pf pe ((progFifoEdges pf pe).after f₀ es₁) es₂) ∧
      (es₁ = [] ∨ (if pe = 1 then 4 else 3) ≤ rdEdges es₂ → wm.wrote ≤ (if pe = 1 then older else rm.used) +
        (acceptedIn ((progFifoEdges pf pe).emitted ((progFifoEdges pf pe).after f₀ es₁) es₂)).length) := by
  obtain ⟨hrun₁, hrun₂⟩ := (DualClock.run_append pe).mp hrun
  obtain ⟨wm₁, rm₁, older₁, h₁, hread₁, hheld₁, -⟩ := (hreset.flagsAt pe hpf haw).run (by omega) hpe es₁ hrun₁
  obtain ⟨wm, rm, older, h, hread, -, hknown, hknown'⟩ := h₁.run (by omega) hpe es₂ hrun₂
  have hwrote : wm.wrote = wm₁.wrote +
      (acceptedIn ((progFifoEdges pf pe).emitted ((progFifoEdges pf pe).after f₀ es₁) es₂)).length := by
    rw [h.counts.wrote, List.length_append, ← h₁.counts.wrote]
  rw [Transducer.after_append, wroteLast_append, readLast_append]
  refine ⟨_, wm, rm, older, h, fun hor => ?_, fun hor => ?_⟩
  · obtain rfl | hedges := hor
    · have : rm₁.read = 0 := hread₁
      omega
    · obtain ⟨n, hn⟩ : ∃ n, wrEdges es₂ = n + 3 := ⟨wrEdges es₂ - 3, by omega⟩
      have hle := hknown rm₁.read 0 (Nat.le_refl _)
      rw [hn, Nat.zero_add] at hle
      have : rm₁.read ≤ wm.used := hle
      omega
  · obtain rfl | hedges := hor
    · have : wm₁.wrote = 0 := h₁.counts.wrote
      omega
    · have hle := hknown' wm₁.wrote 0 ⟨Nat.le_refl _, nofun⟩
      obtain ⟨n, hn⟩ : ∃ n, rdEdges es₂ = n + 3 := ⟨rdEdges es₂ - 3, by split at hedges <;> omega⟩
      rw [hn, Nat.zero_add] at hle
      by_cases hone : pe = 1
      · rw [if_pos hone] at hedges ⊢
        have : wm₁.wrote ≤ older := hle.2 (by omega)
        omega
      · rw [if_neg hone]
        have : wm₁.wrote ≤ rm.used := hle.1
        omega

def ProgFifo.tick (f : ProgFifo aw α) (en : Bool × Bool) : ClockEdges aw α :=
  (some ⟨false, en.1, 0, f.fifo.rd.rdAddrGray⟩, some ⟨false, en.2, f.fifo.wr.wrAddrGray⟩)

def ProgFifo.ticks (pf pe : Nat) : ProgFifo aw α → List (Bool × Bool) → List (ClockEdges aw α)
  | _, [] => []
  | f, en :: ens => f.tick en :: ProgFifo.ticks pf pe (f.next pf pe (f.tick en)) ens

theorem ProgFifo.ticks_append (f : ProgFifo aw α) (a b : List (Bool × Bool)) :
    f.ticks pf pe (a ++ b) = f.ticks pf pe a ++ ((progFifoEdges pf pe).after f (f.ticks pf pe a)).ticks pf pe b := by
  induction a generalizing f with
  | nil => rfl
  | cons e a ih =>
    rw [List.cons_append, ticks, ticks, ih]
    rfl

theorem ProgFifo.ticks_run (f : ProgFifo aw α) (es : List (Bool × Bool)) : f.fifo.Run pf (f.ticks pf pe es) := by
  induction es generalizing f with
  | nil => trivial
  | cons e es ih =>
    refine ⟨⟨?_, ?_⟩, ?_, ?_, ih (f.next pf pe (f.tick e))⟩
    · rintro i ⟨rfl⟩
      exact .left _ _
    · rintro i ⟨rfl⟩
      exact .left _ _
    · rintro i ⟨rfl⟩
      rfl
    · rintro i ⟨rfl⟩
      rfl

/-- The flags against what the FIFO still takes and gives, for every order of the edges of
the two clocks and every use of `wr_en` and `rd_en`. While `prog_full` is low there is room for
one word more than `PROG_FULL`. While it is high, or `prog_empty` is, the margin counts the word
that the last edge moved, the words in front of the memory, and what the other side did since
the third edge before, or the fourth. -/
theorem fifo_dualclock_fwft_prog_flags (haw : 4 ≤ aw) (pf pe : Nat) (hpf : 1 ≤ pf) (hpf' : pf ≤ 8) (hpe : 1 ≤ pe)
    (hpe' : pe ≤ 8) (f₀ : ProgFifo aw α) (hreset : f₀.IsReset) (es es' : List (ClockEdges aw α))
    (hrun : f₀.fifo.Run pf (es ++ es')) :
    let m : Transducer (ProgFifo aw α) _ _ := progFifoEdges pf pe
    let f := m.after f₀ es
    let later := m.emitted f es'
    (f.progFull pf = true → deliveredIn later = [] →
      ∀ es₁ es₂, es = es₁ ++ es₂ → es₁ = [] ∨ 3 ≤ wrEdges es₂ →
        (acceptedIn later).length ≤ pf + 1 - (wroteLast pf pe false f₀ es).toNat + (3 - f.fifo.prefetch.count) +
          readsIn pf pe (m.after f₀ es₁) es₂) ∧
    (f.progFull pf = false → (m.after f es').fifo.full = true → pf + 1 ≤ (acceptedIn later).length) ∧
    (f.progEmpty pe = true → f.fifo.empty = false → acceptedIn later = [] →
      ∀ es₁ es₂, es = es₁ ++ es₂ → es₁ = [] ∨ (if pe = 1 then 4 else 3) ≤ rdEdges es₂ →
        (deliveredIn later).length ≤ f.readMargin pe (readLast pf pe false f₀ es) +
          (acceptedIn (m.emitted (m.after f₀ es₁) es₂)).length) := by
  intro m f later
  have hdepth : 2 ^ 4 ≤ 2 ^ aw := Nat.pow_le_pow_right Nat.two_pos haw
  have hinner : innerProgEmpty pe + 1 < 2 ^ aw := by
    unfold innerProgEmpty
    split_ifs <;> omega
  obtain ⟨hbefore, hafter⟩ := (DualClock.run_append pe).mp hrun
  have hat (es₁ es₂ : List (ClockEdges aw α)) (hes : es = es₁ ++ es₂) :=
    hreset.flagsAt_run (by omega) hinner (by omega) es₁ es₂ (hes ▸ hbefore)
  refine ⟨fun hhigh hnone es₁ es₂ hes hor => ?_, fun hlow hfull => ?_, fun hhigh hempty hnone es₁ es₂ hes hor => ?_⟩
  · obtain ⟨words, wm, rm, older, h, hused, -⟩ := hat es₁ es₂ hes
    rw [← hes] at h
    have hwrote := (wroteLast pf pe false f₀ es).toNat_le
    have hle : (acceptedIn later).length + wm.used + (wroteLast pf pe false f₀ es).toNat ≤
        rm.read + (pf + 1) + (3 - f.fifo.prefetch.count) := h.accepted_le hpf (by omega) hinner es' hafter hhigh hnone
    have hread : rm.read ≤ wm.used + readsIn pf pe (m.after f₀ es₁) es₂ := hused hor
    omega
  · obtain ⟨words, wm, rm, older, h, -⟩ := hat es [] (List.append_nil es).symm
    rw [List.append_nil] at h
    exact h.lt_accepted hpf (by omega) hinner es' hafter hlow hfull
  · obtain ⟨words, wm, rm, older, h, -, hwrote⟩ := hat es₁ es₂ hes
    rw [← hes] at h
    have hle : (deliveredIn later).length + (if pe = 1 then older else rm.used) ≤
        wm.wrote + f.readMargin pe (readLast pf pe false f₀ es) :=
      h.delivered_le (by omega) hinner es' hafter hpe hhigh hempty hnone
    have hknown : wm.wrote ≤ (if pe = 1 then older else rm.used) +
        (acceptedIn (m.emitted (m.after f₀ es₁) es₂)).length := hwrote hor
    omega

/-- `DEPTH` 16, `PROG_FULL` 1, `PROG_EMPTY` 2: 16 words are written, and the clocks go on for as
long as the synchronisers need. -/
theorem fifo_dualclock_fwft_prog_flags_filled :
    let f₀ : ProgFifo 4 Nat :=
      ⟨⟨⟨0, 0, 0, 0, false, [false, false]⟩, ⟨0, 0, 0, 0, true, 0⟩, fun _ => 0, .reset 0⟩, [false]⟩
    let f := (progFifoEdges 1 2).after f₀ (f₀.ticks 1 2 (.replicate 16 (true, false) ++ .replicate 6 (false, false)))
    (acceptedIn ((progFifoEdges 1 2).emitted f (f.ticks 1 2 (.replicate 5 (true, false))))).length ≤ 1 + 1 := by
  intro f₀ f
  have hreset : f₀.IsReset := ⟨by constructor <;> rfl, rfl, rfl⟩
  have hrun : f₀.fifo.Run 1 (f₀.ticks 1 2 (.replicate 16 (true, false) ++ .replicate 6 (false, false)) ++
      f.ticks 1 2 (.replicate 5 (true, false))) := by
    rw [← ProgFifo.ticks_append]
    exact ProgFifo.ticks_run _ _
  refine ((fifo_dualclock_fwft_prog_flags (Nat.le_refl 4) 1 2 (Nat.le_refl 1) (by decide) (by decide) (by decide)
    f₀ hreset _ _ hrun).1 ?_ ?_ _ _ (f₀.ticks_append _ _) (.inr ?_)).trans ?_
  · decide +kernel
  · decide +kernel
  · decide +kernel
  · decide +kernel

/-- Then `prog_full` is high and two more words are accepted. And behind three words that are
not read, `prog_empty` is high and all three of them are left. -/
theorem fifo_dualclock_fwft_prog_flags_idle :
    let m : Transducer (ProgFifo 4 Nat) _ _ := progFifoEdges 1 2
    let f₀ : ProgFifo 4 Nat :=
      ⟨⟨⟨0, 0, 0, 0, false, [false, false]⟩, ⟨0, 0, 0, 0, true, 0⟩, fun _ => 0, .reset 0⟩, [false]⟩
    let es := f₀.ticks 1 2 (.replicate 16 (true, false) ++ .replicate 6 (false, false))
    let es' := (m.after f₀ es).ticks 1 2 (.replicate 2 (true, false))
    let ds := f₀.ticks 1 2 (.replicate 3 (true, false) ++ .replicate 6 (false, false))
    let ds' := (m.after f₀ ds).ticks 1 2 (.replicate 3 (false, true))
    f₀.IsReset ∧
      (f₀.fifo.Run 1 (es ++ es') ∧ (m.after f₀ es).progFull 1 = true ∧
        deliveredIn (m.emitted (m.after f₀ es) es') = [] ∧
        ¬(acceptedIn (m.emitted (m.after f₀ es) es')).length ≤ 1) ∧
      f₀.fifo.Run 1 (ds ++ ds') ∧ (m.after f₀ ds).progEmpty 2 = true ∧ (m.after f₀ ds).fifo.empty = false ∧
        acceptedIn (m.emitted (m.after f₀ ds) ds') = [] ∧
        ¬(deliveredIn (m.emitted (m.after f₀ ds) ds')).length ≤ 2 := by
  intro m f₀ es es' ds ds'
  have hreset : f₀.IsReset := ⟨by constructor <;> rfl, rfl, rfl⟩
  refine ⟨hreset, ⟨?_, by decide +kernel⟩, ?_, by decide +kernel⟩
  · rw [← ProgFifo.ticks_append]
    exact ProgFifo.ticks_run _ _
  · rw [← ProgFifo.ticks_append]
    exact ProgFifo.ticks_run _ _

end Results
end Glip.Fifo
