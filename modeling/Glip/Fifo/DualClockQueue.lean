import Glip.Fifo.DualClock
import Glip.Fifo.FifoEvents
import Glip.Foundation.Transducer

/-! fifo_dualclock_fwft.sv as a queue, for every order of the edges of its clocks. -/
namespace Glip.Fifo
open Foundation
variable {aw : Nat} {α : Type} [OfNat α 0]

/-- `n` edges of `wr_clk` after the first `reads` reads were made: how far the write side has
got to know of them. -/
def WriteMarks.Known (wm : WriteMarks) (rm : ReadMarks) (reads : Nat) : Nat → Prop
  | 0 => reads ≤ rm.read
  | 1 => reads ≤ wm.seen
  | 2 => reads ≤ wm.seenR
  | _ + 3 => reads ≤ wm.used

def ReadMarks.Known (rm : ReadMarks) (wm : WriteMarks) (writes : Nat) : Nat → Prop
  | 0 => writes ≤ wm.wrote
  | 1 => writes ≤ rm.seen
  | 2 => writes ≤ rm.seenR
  | _ + 3 => writes ≤ rm.used

namespace DualClock
variable {s : DualClock aw α} {reserve : Nat} {w : Option (WriteEdge aw α)} {r : Option (ReadEdge aw)}
  {words : List α} {wm : WriteMarks} {rm : ReadMarks}

section At
variable (h : s.At words wm rm)
include h

omit [OfNat α 0] in
theorem At.read_le : rm.read + (s.reads r).toNat ≤ wm.wrote := by
  have := h.rd.read_le
  have := h.rd.used_le
  have := h.rd.seenR_le
  have := h.seen_le_wrote
  cases hr : s.reads r with
  | false =>
    dsimp only [Bool.toNat_false]
    omega
  | true => exact h.reads_lt hr

private theorem At.sampled_rd {i : WriteEdge aw α} (hs : s.Sampled reserve (some i) r)
    (hr : ∀ i ∈ r, i.rdRst = false) :
    ∃ k, rm.read ≤ k ∧ k ≤ rm.read + (s.reads r).toNat ∧ i.rdAddrGray = gray (BitVec.ofNat aw k) := by
  have hbetween := hs.rdAddrGray i rfl
  rw [h.rd.rdAddrGray, h.next_rdAddrGray hr] at hbetween
  have hcount : rm.read + (s.reads r).toNat = rm.read ∨ rm.read + (s.reads r).toNat = rm.read + 1 := by
    cases s.reads r <;> simp
  exact between_gray_count hcount hbetween

private theorem At.wr_marks (hs : s.Sampled reserve w r) (hw : ∀ i ∈ w, i.wrRst = false)
    (hr : ∀ i ∈ r, i.rdRst = false) :
    ∃ wm', (s.next reserve w r).wr.At wm' ∧ wm'.wrote = wm.wrote + (s.accepts w).length ∧
      (wm'.used = if w.isSome then wm.seenR else wm.used) ∧ wm'.seen ≤ rm.read + (s.reads r).toNat ∧
      ∀ rm' reads n, rm'.read = rm.read + (s.reads r).toNat → wm.Known rm reads n →
        wm'.Known rm' reads (n + w.isSome.toNat) := by
  cases w with
  | none =>
    refine ⟨wm, h.wr, by simp [accepts], by simp, Nat.le_add_right_of_le h.seen_le_read, ?_⟩
    intro rm' reads n hread hknown
    have hmore : rm.read ≤ rm'.read := hread ▸ Nat.le_add_right _ _
    obtain _ | _ | _ | n := n
    · exact Nat.le_trans hknown hmore
    · exact hknown
    · exact hknown
    · exact hknown
  | some i =>
    obtain ⟨k, hk, hle, hv⟩ := h.sampled_rd hs hr
    refine ⟨_, h.next_wr (hw i rfl) hk (Nat.le_trans hle h.read_le) hv, rfl, rfl, hle, ?_⟩
    intro rm' reads n _ hknown
    obtain _ | _ | _ | n := n
    · exact Nat.le_trans hknown hk
    · exact hknown
    · exact hknown
    · exact Nat.le_trans hknown h.wr.used_le

/-- After an edge of `wr_clk`, `prog_full` is low only with room for the words that it
announces, and for two more. -/
theorem At.next_progFull {i : WriteEdge aw α} (hs : s.Sampled reserve (some i) r) (hw : i.wrRst = false)
    (hr : ∀ i ∈ r, i.rdRst = false) (hp : (s.next reserve (some i) r).wr.progFull reserve = false) :
    wm.wrote + (s.accepts (some i)).length + reserve + 2 ≤ wm.seenR + 2 ^ aw := by
  obtain ⟨k, hk, hle, hv⟩ := h.sampled_rd hs hr
  exact h.next_wr_progFull hw hk (Nat.le_trans hle h.read_le) hv hp

private theorem At.rd_marks (hs : s.Sampled reserve w r) (hw : ∀ i ∈ w, i.wrRst = false)
    (hr : ∀ i ∈ r, i.rdRst = false) :
    ∃ rm', (s.next reserve w r).rd.At rm' ∧ rm'.read = rm.read + (s.reads r).toNat ∧
      (rm'.used = if r.isSome then rm.seenR else rm.used) ∧ rm'.seen ≤ wm.wrote + (s.accepts w).length ∧
      ∀ wm' writes n, wm'.wrote = wm.wrote + (s.accepts w).length → rm.Known wm writes n →
        rm'.Known wm' writes (n + r.isSome.toNat) := by
  cases r with
  | none =>
    refine ⟨rm, h.rd, by simp [reads], by simp, Nat.le_add_right_of_le h.seen_le_wrote, ?_⟩
    intro wm' writes n hwrote hknown
    have hmore : wm.wrote ≤ wm'.wrote := hwrote ▸ Nat.le_add_right _ _
    obtain _ | _ | _ | n := n
    · exact Nat.le_trans hknown hmore
    · exact hknown
    · exact hknown
    · exact hknown
  | some i =>
    have hbetween := hs.wrAddrGray i rfl
    rw [h.wr.wrAddrGray, h.next_wrAddrGray hw] at hbetween
    have hcount : wm.wrote + (s.accepts w).length = wm.wrote ∨
        wm.wrote + (s.accepts w).length = wm.wrote + 1 := by
      cases w with
      | none => simp [accepts]
      | some i => cases he : i.wrEn && !s.full <;> simp [accepts, he]
    obtain ⟨k, hk, hle, hv⟩ := between_gray_count hcount hbetween
    refine ⟨_, h.next_rd (hr i rfl) hk hv, rfl, rfl, hle, ?_⟩
    intro wm' writes n _ hknown
    obtain _ | _ | _ | n := n
    · exact Nat.le_trans hknown hk
    · exact hknown
    · exact hknown
    · exact Nat.le_trans hknown h.rd.used_le

/-- Away from reset an edge counts on what it writes and reads. -/
theorem At.next (hs : s.Sampled reserve w r) (hw : ∀ i ∈ w, i.wrRst = false)
    (hr : ∀ i ∈ r, i.rdRst = false) :
    ∃ wm' rm', (s.next reserve w r).At (words ++ s.accepts w) wm' rm' ∧
      rm'.read = rm.read + (s.reads r).toNat ∧ (wm'.used = if w.isSome then wm.seenR else wm.used) ∧
      (∀ reads n, wm.Known rm reads n → wm'.Known rm' reads (n + w.isSome.toNat)) ∧
      (rm'.used = if r.isSome then rm.seenR else rm.used) ∧
      ∀ writes n, rm.Known wm writes n → rm'.Known wm' writes (n + r.isSome.toNat) := by
  obtain ⟨wm', hwr, hwrote, hused, hseen, hknown⟩ := h.wr_marks hs hw hr
  obtain ⟨rm', hrd, hread, hused', hseen', hknown'⟩ := h.rd_marks hs hw hr
  refine ⟨wm', rm', ⟨hwr, hrd, ?_, ?_, ?_, ?_⟩, hread, hused, fun reads n => hknown rm' reads n hread, hused',
    fun writes n => hknown' wm' writes n hwrote⟩
  · rw [hwrote, h.wrote, List.length_append]
  · rw [hread]
    exact hseen
  · rw [hwrote]
    exact hseen'
  · intro j hj hle
    exact h.next_mem j hj (hread ▸ hle)

end At

def inside (s : DualClock aw α) (words : List α) (read : Nat) : List α :=
  s.prefetch.contents s.rd.dout ++ words.drop read

/-- An edge is a step of a queue. -/
theorem At.next_inside (h : s.At words wm rm) (hr : ∀ i ∈ r, i.rdRst = false) :
    s.delivers r ++ (s.next reserve w r).inside (words ++ s.accepts w) (rm.read + (s.reads r).toNat) =
      s.inside words rm.read ++ s.accepts w := by
  have hle := h.read_le (r := r)
  rw [h.wrote] at hle
  rw [inside, inside, List.drop_append_of_le_length hle]
  cases r with
  | none => simp [delivers, reads, DualClock.next]
  | some i =>
    have hprefetch := s.prefetch.contents_next i.rdEn s.rd.empty s.rd.dout (s.mem s.rd.rdAddr)
    have hreads : s.reads (some i) = s.prefetch.fifoRdEn s.rd.empty := by simp [reads]
    have hrst := hr i rfl
    have hdrop : (if s.prefetch.fifoRdEn s.rd.empty then [s.mem s.rd.rdAddr] else []) ++
        words.drop (rm.read + (s.prefetch.fifoRdEn s.rd.empty).toNat) = words.drop rm.read := by
      rw [hreads] at hle
      cases hread : s.prefetch.fifoRdEn s.rd.empty with
      | false => simp
      | true =>
        rw [hread, Bool.toNat_true] at hle
        rw [if_pos rfl, Bool.toNat_true, List.drop_eq_getElem_cons (show rm.read < words.length by omega),
          h.rd.rdAddr, h.mem rm.read (by omega) (Nat.le_refl _)]
        rfl
    have hnext : (s.next reserve w (some i)).prefetch = s.prefetch.next i.rdEn s.rd.empty s.rd.dout := by
      simp [DualClock.next, hrst]
    have hdout : (s.next reserve w (some i)).rd.dout =
        if s.prefetch.fifoRdEn s.rd.empty then s.mem s.rd.rdAddr else s.rd.dout := rfl
    rw [hnext, hdout, hreads, ← List.append_assoc, ← List.append_assoc]
    have hdelivered : s.delivers (some i) = s.prefetch.delivers i.rdEn := rfl
    rw [hdelivered, hprefetch, List.append_assoc (s.prefetch.contents s.rd.dout), hdrop]

def unread (s : DualClock aw α) : List α :=
  (List.range (s.wr.wrAddr - s.rd.rdAddr).toNat).map fun i => s.mem (s.rd.rdAddr + BitVec.ofNat aw i)

def contents (s : DualClock aw α) : List α := s.prefetch.contents s.rd.dout ++ s.unread

omit [OfNat α 0] in
theorem At.unread_eq (h : s.At words wm rm) : s.unread = words.drop rm.read := by
  have hle : rm.read ≤ words.length := h.wrote ▸ h.read_le (r := none)
  have hnear := h.near
  obtain ⟨d, hd⟩ := Nat.exists_eq_add_of_le hle
  rw [h.wrote, hd] at hnear
  have hcount : (s.wr.wrAddr - s.rd.rdAddr).toNat = d := by
    rw [h.wr.wrAddr, h.rd.rdAddr, h.wrote, hd, BitVec.ofNat_add, BitVec.add_comm, BitVec.add_sub_cancel,
      BitVec.toNat_ofNat, Nat.mod_eq_of_lt (by omega)]
  apply List.ext_getElem
  · simp [unread, hcount, hd]
  · intro i hi hi'
    rw [List.length_drop] at hi'
    simp only [unread, List.getElem_map, List.getElem_range, List.getElem_drop]
    rw [h.rd.rdAddr, ← BitVec.ofNat_add, h.mem _ (by omega) (Nat.le_add_right _ _)]

omit [OfNat α 0] in
theorem At.contents_eq (h : s.At words wm rm) : s.contents = s.inside words rm.read := by
  rw [contents, h.unread_eq, inside]

/-- How near to the output the words are, `n` edges of `rd_clk` after the last edge of
`wr_clk`: `empty` is right after three, from the fourth on a word is on the way to the
output, and from the fifth on the output shows the first of them. -/
structure Settled (s : DualClock aw α) (wm : WriteMarks) (rm : ReadMarks) (n : Nat) : Prop where
  known : rm.Known wm wm.wrote n
  fetched : 4 ≤ n → s.prefetch.middleValid = false → s.prefetch.fifoValid = false → rm.read = wm.wrote
  shown : 5 ≤ n → s.empty = true → s.contents = []

omit [OfNat α 0] in
theorem settled_zero : s.Settled wm rm 0 :=
  ⟨Nat.le_refl _, fun hn => absurd hn (by decide), fun hn => absurd hn (by decide)⟩

omit [OfNat α 0] in
theorem At.empty_iff (h : s.At words wm rm) (hknown : wm.wrote ≤ rm.used) : s.rd.empty = true ↔ rm.read = wm.wrote := by
  have := h.rd.used_le
  have := h.rd.seenR_le
  have := h.seen_le_wrote
  rw [h.rd.empty]
  omega

/-- Without an edge of `wr_clk` the words come nearer. -/
theorem At.next_settled (h : s.At words wm rm) {n : Nat} (hset : s.Settled wm rm n) (hs : s.Sampled reserve none r)
    (hr : ∀ i ∈ r, i.rdRst = false) :
    ∃ wm' rm', (s.next reserve none r).At words wm' rm' ∧
      (s.next reserve none r).Settled wm' rm' (n + r.isSome.toNat) := by
  cases r with
  | none => exact ⟨wm, rm, h, hset⟩
  | some i =>
    obtain ⟨wm', rm', hat, hread, -, -, -, hknown⟩ := h.next hs (fun i hi => by cases hi) hr
    have hwords : words ++ s.accepts none = words := List.append_nil words
    rw [hwords] at hat
    have hwrote : wm'.wrote = wm.wrote := hat.wrote.trans h.wrote.symm
    have hknown : rm'.Known wm' wm'.wrote (n + 1) := hwrote ▸ hknown wm.wrote n hset.known
    have hprefetch : (s.next reserve none (some i)).prefetch = s.prefetch.next i.rdEn s.rd.empty s.rd.dout := by
      simp [DualClock.next, hr i rfl]
    have hused (hn : 3 ≤ n) : wm.wrote ≤ rm.used := by
      obtain ⟨n, rfl⟩ := Nat.exists_eq_add_of_le' hn
      exact hset.known
    have hkept (he : s.rd.empty = true) : rm'.read = rm.read := by simp [hread, reads, Prefetch.fifoRdEn, he]
    rw [Option.isSome_some, Bool.toNat_true]
    refine ⟨wm', rm', hat, hknown, fun hn hmiddle hfifo => ?_, fun hn hempty => ?_⟩
    · have he : s.rd.empty = true := by
        by_contra hne
        have := Prefetch.next_behind s.prefetch i.rdEn s.rd.empty s.rd.dout (Bool.eq_false_iff.mpr hne)
        rw [← hprefetch, hmiddle, hfifo] at this
        cases this
      rw [hkept he, hwrote]
      exact (h.empty_iff (hused (by omega))).mp he
    · rw [empty, hprefetch] at hempty
      obtain ⟨hmiddle, hfifo⟩ := Prefetch.behind_of_next_empty _ _ _ _ hempty
      have hall := hset.fetched (by omega) hmiddle hfifo
      have he : s.rd.empty = true := (h.empty_iff (hused (by omega))).mpr hall
      rw [he] at hprefetch hempty
      rw [hat.contents_eq, inside, hprefetch, Prefetch.contents_next_empty _ _ _ hempty, hkept he, hall, h.wrote,
        List.drop_length, List.append_nil]

structure IsReset (s : DualClock aw α) : Prop where
  wrAddr : s.wr.wrAddr = 0
  wrAddrGray : s.wr.wrAddrGray = 0
  rdAddrGrayWr : s.wr.rdAddrGrayWr = 0
  rdAddrGrayWrR : s.wr.rdAddrGrayWrR = 0
  full : s.wr.full = false
  rdAddr : s.rd.rdAddr = 0
  rdAddrGray : s.rd.rdAddrGray = 0
  wrAddrGrayRd : s.rd.wrAddrGrayRd = 0
  wrAddrGrayRdR : s.rd.wrAddrGrayRdR = 0
  empty : s.rd.empty = true
  prefetch : s.prefetch = Prefetch.reset 0

theorem isReset_next {i : WriteEdge aw α} {j : ReadEdge aw} (hi : i.wrRst = true) (hj : j.rdRst = true) :
    (s.next reserve (some i) (some j)).IsReset := by
  constructor <;> simp [DualClock.next, WriteSide.next, ReadSide.next, hi, hj]

/-- A reset lasts as long as neither side leaves it. -/
theorem IsReset.next_rst (h : s.IsReset) (hw : ∀ i ∈ w, i.wrRst = true) (hr : ∀ i ∈ r, i.rdRst = true) :
    (s.next reserve w r).IsReset := by
  cases w with
  | none =>
    cases r with
    | none => exact h
    | some j =>
      have hj := hr j rfl
      constructor <;> simp [DualClock.next, ReadSide.next, hj, h.wrAddr, h.wrAddrGray, h.rdAddrGrayWr,
        h.rdAddrGrayWrR, h.full]
  | some i =>
    have hi := hw i rfl
    cases r with
    | none =>
      constructor <;> simp [DualClock.next, WriteSide.next, hi, h.rdAddr, h.rdAddrGray, h.wrAddrGrayRd,
        h.wrAddrGrayRdR, h.empty, h.prefetch]
    | some j =>
      have hj := hr j rfl
      constructor <;> simp [DualClock.next, WriteSide.next, ReadSide.next, hi, hj]

theorem IsReset.at (h : s.IsReset) (haw : 0 < aw) : s.At [] ⟨0, 0, 0, 0⟩ ⟨0, 0, 0, 0⟩ := by
  have hzero : gray (0 : BitVec aw) = 0 := by simp [gray]
  have hdepth : 1 < 2 ^ aw := Nat.one_lt_two_pow (by omega)
  refine ⟨⟨h.wrAddr, ?_, ?_, ?_, Nat.le_refl 0, Nat.le_refl 0, Nat.le_refl 0, by dsimp only; omega, ?_⟩,
    ⟨h.rdAddr, ?_, ?_, ?_, Nat.le_refl 0, Nat.le_refl 0, Nat.le_refl 0, by simp [h.empty]⟩, rfl,
    Nat.le_refl 0, Nat.le_refl 0, fun i hi => absurd hi (Nat.not_lt_zero i)⟩
  · exact h.wrAddrGray.trans hzero.symm
  · exact h.rdAddrGrayWr.trans hzero.symm
  · exact h.rdAddrGrayWrR.trans hzero.symm
  · rw [h.full]
    simp only [Bool.false_eq_true, false_iff]
    omega
  · exact h.rdAddrGray.trans hzero.symm
  · exact h.wrAddrGrayRd.trans hzero.symm
  · exact h.wrAddrGrayRdR.trans hzero.symm

theorem IsReset.contents_eq (h : s.IsReset) (haw : 0 < aw) : s.contents = [] := by
  rw [(h.at haw).contents_eq, inside, h.prefetch, Prefetch.contents_reset]
  rfl

theorem IsReset.settled (h : s.IsReset) (haw : 0 < aw) (n : Nat) : s.Settled ⟨0, 0, 0, 0⟩ ⟨0, 0, 0, 0⟩ n := by
  refine ⟨?_, fun _ _ _ => rfl, fun _ _ => h.contents_eq haw⟩
  obtain _ | _ | _ | n := n <;> exact Nat.le_refl 0

/-- A FIFO that has come from a reset by edges. -/
def Sound (s : DualClock aw α) : Prop := ∃ words wm rm, s.At words wm rm

theorem IsReset.sound (h : s.IsReset) (haw : 0 < aw) : s.Sound := ⟨_, _, _, h.at haw⟩

/-- An edge of a FIFO on what its registers show. -/
theorem Sound.next (h : s.Sound) (hs : s.Sampled reserve w r) (hw : ∀ i ∈ w, i.wrRst = false)
    (hr : ∀ i ∈ r, i.rdRst = false) :
    (s.next reserve w r).Sound ∧ s.delivers r ++ (s.next reserve w r).contents = s.contents ++ s.accepts w := by
  obtain ⟨words, wm, rm, hat⟩ := h
  obtain ⟨wm', rm', hat', hread, -⟩ := hat.next hs hw hr
  refine ⟨⟨_, wm', rm', hat'⟩, ?_⟩
  rw [hat'.contents_eq, hat.contents_eq, hread]
  exact hat.next_inside hr

omit [OfNat α 0] in
/-- The first word inside is on the output. -/
theorem contents_eq_cons (h : s.empty = false) : ∃ rest, s.contents = s.prefetch.dout :: rest := by
  have hvalid : s.prefetch.doutValid = true := by simpa [empty, Prefetch.empty] using h
  rw [contents, Prefetch.contents, hvalid]
  exact ⟨_, rfl⟩

theorem IsReset.delivers_eq (h : s.IsReset) : s.delivers r = [] := by
  cases r with
  | none => rfl
  | some i => simp [delivers, Prefetch.delivers, Prefetch.empty, h.prefetch, Prefetch.reset]

end DualClock

def dualClockEdges (reserve : Nat) :
    Transducer (DualClock aw α) (Option (WriteEdge aw α) × Option (ReadEdge aw)) (FifoEvent α) where
  next s e := s.next reserve e.1 e.2
  emit s e := (s.accepts e.1).map .accepted ++ (s.delivers e.2).map .delivered

/-- A run whose synchronisers take what there is to sample, without a reset. -/
def DualClock.Run (reserve : Nat) : DualClock aw α → List (Option (WriteEdge aw α) × Option (ReadEdge aw)) → Prop
  | _, [] => True
  | s, e :: es => s.Sampled reserve e.1 e.2 ∧ (∀ i ∈ e.1, i.wrRst = false) ∧
      (∀ i ∈ e.2, i.rdRst = false) ∧ DualClock.Run reserve (s.next reserve e.1 e.2) es

instance (reserve : Nat) : (s : DualClock aw α) → (es : List (Option (WriteEdge aw α) × Option (ReadEdge aw))) →
    Decidable (s.Run reserve es)
  | _, [] => instDecidableTrue
  | s, e :: es =>
    have : Decidable ((s.next reserve e.1 e.2).Run reserve es) := instDecidableRun reserve _ es
    inferInstanceAs (Decidable (_ ∧ _ ∧ _ ∧ _))

/-- All that a run has accepted has been delivered or is still inside. -/
theorem DualClock.At.run {s : DualClock aw α} {reserve : Nat} {words : List α} {wm : WriteMarks} {rm : ReadMarks}
    (h : s.At words wm rm) (es : List (Option (WriteEdge aw α) × Option (ReadEdge aw))) (hrun : s.Run reserve es) :
    ∃ wm' rm', ((dualClockEdges reserve).after s es).At
          (words ++ acceptedIn ((dualClockEdges reserve).emitted s es)) wm' rm' ∧
      deliveredIn ((dualClockEdges reserve).emitted s es) ++
          ((dualClockEdges reserve).after s es).inside
            (words ++ acceptedIn ((dualClockEdges reserve).emitted s es)) rm'.read =
        s.inside words rm.read ++ acceptedIn ((dualClockEdges reserve).emitted s es) := by
  induction es generalizing s words wm rm with
  | nil => exact ⟨wm, rm, by simpa [acceptedIn] using h, by simp [acceptedIn, deliveredIn]⟩
  | cons e es ih =>
    obtain ⟨hs, hw, hr, hrun⟩ := hrun
    obtain ⟨wm₁, rm₁, h₁, hread, -⟩ := h.next hs hw hr
    obtain ⟨wm₂, rm₂, h₂, hrest⟩ := ih h₁ hrun
    have hstep : s.delivers e.2 ++ (s.next reserve e.1 e.2).inside (words ++ s.accepts e.1) rm₁.read =
        s.inside words rm.read ++ s.accepts e.1 := hread ▸ h.next_inside hr
    have haccepted : acceptedIn ((dualClockEdges reserve).emitted s (e :: es)) =
        s.accepts e.1 ++ acceptedIn ((dualClockEdges reserve).emitted (s.next reserve e.1 e.2) es) := by
      simp [dualClockEdges]
    have hdelivered : deliveredIn ((dualClockEdges reserve).emitted s (e :: es)) =
        s.delivers e.2 ++ deliveredIn ((dualClockEdges reserve).emitted (s.next reserve e.1 e.2) es) := by
      simp [dualClockEdges]
    rw [haccepted, hdelivered, ← List.append_assoc]
    refine ⟨wm₂, rm₂, h₂, ?_⟩
    rw [List.append_assoc, Transducer.after_cons]
    have hafter : (dualClockEdges reserve).next s e = s.next reserve e.1 e.2 := rfl
    rw [hafter, hrest, ← List.append_assoc, hstep, List.append_assoc]

/-- From a common reset on and for every order of the edges of the two clocks,
`fifo_dualclock_fwft` delivers the words that it accepts in their order and keeps the
others inside, at most `DEPTH - 1` of them in the memory. -/
theorem fifo_dualclock_fwft_refines_queue (haw : 2 ≤ aw) (reserve : Nat) (s₀ : DualClock aw α) (hreset : s₀.IsReset)
    (es : List (Option (WriteEdge aw α) × Option (ReadEdge aw))) (hrun : s₀.Run reserve es) :
    let m : Transducer (DualClock aw α) _ _ := dualClockEdges reserve
    let accepted := acceptedIn (m.emitted s₀ es)
    let delivered := deliveredIn (m.emitted s₀ es)
    delivered <+: accepted ∧ ∃ wm rm, (m.after s₀ es).At accepted wm rm ∧
      accepted = delivered ++ ((m.after s₀ es).prefetch.contents (m.after s₀ es).rd.dout ++ accepted.drop rm.read) ∧
      (accepted.drop rm.read).length ≤ 2 ^ aw - 1 := by
  intro m accepted delivered
  obtain ⟨wm, rm, hafter, hqueue⟩ := (hreset.at (by omega)).run es hrun
  have hnothing : s₀.inside [] 0 = [] := by simp [DualClock.inside, hreset.prefetch]
  rw [List.nil_append] at hqueue hafter
  rw [hnothing, List.nil_append] at hqueue
  refine ⟨⟨_, hqueue⟩, wm, rm, hafter, hqueue.symm, ?_⟩
  have := hafter.near
  rw [List.length_drop, ← hafter.wrote]
  omega

/-- A word that is written while the read pointer is sampled, and read four edges later. -/
theorem fifo_dualclock_fwft_refines_queue_passes :
    let s₀ : DualClock 2 Nat := ⟨⟨0, 0, 0, 0, false, []⟩, ⟨0, 0, 0, 0, true, 0⟩, fun _ => 0, .reset 0⟩
    let es : List (Option (WriteEdge 2 Nat) × Option (ReadEdge 2)) :=
      [(some ⟨false, true, 7, 0⟩, some ⟨false, true, 1⟩), (none, some ⟨false, true, 1⟩),
        (none, some ⟨false, true, 1⟩), (some ⟨false, false, 0, 0⟩, none), (none, some ⟨false, true, 1⟩),
        (none, some ⟨false, true, 1⟩), (none, some ⟨false, true, 1⟩)]
    deliveredIn ((dualClockEdges 4).emitted s₀ es) = [7] ∧
      deliveredIn ((dualClockEdges 4).emitted s₀ es) <+: acceptedIn ((dualClockEdges 4).emitted s₀ es) := by
  intro s₀ es
  have hreset : s₀.IsReset := by constructor <;> rfl
  have hrun : s₀.Run 4 es := by decide
  exact ⟨by decide, (fifo_dualclock_fwft_refines_queue (Nat.le_refl 2) 4 s₀ hreset es hrun).1⟩

end Glip.Fifo
