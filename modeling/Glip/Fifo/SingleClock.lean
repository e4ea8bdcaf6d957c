import Glip.Fifo.FifoEvents
import Glip.Fifo.Prefetch
import Glip.Foundation.GrayCode
import Glip.Foundation.Transducer
import Mathlib.Logic.Function.Basic

/-! The FIFO with one clock: fifo_singleclock_standard.sv, whose memory is read on the
clock edge, and fifo_singleclock_fwft.sv around it. `DEPTH` is `2 ^ aw`. -/
namespace Glip.Fifo
open Foundation
variable {aw : Nat} {α : Type}

structure SingleClock (aw : Nat) (α : Type) where
  wrAddr : BitVec aw
  rdAddr : BitVec aw
  rdCount : BitVec aw
  ram : BitVec aw → α
  dout : α

namespace SingleClock
variable (s : SingleClock aw α)

def empty : Bool := s.rdCount.toNat == 0

def progFull (atLeast : Nat) : Bool := atLeast ≤ s.rdCount.toNat

def full : Bool := s.rdCount.toNat == 2 ^ aw - 1

def fifoRead (rdEn : Bool) : Bool := rdEn && !s.empty

def fifoWrite (wrEn : Bool) : Bool := wrEn && !s.full

/-- The registers after the clock edge; the memory is not reset. -/
def next (rst wrEn rdEn : Bool) (din : α) : SingleClock aw α where
  wrAddr := if rst then 0 else if s.fifoWrite wrEn then s.wrAddr + 1 else s.wrAddr
  rdAddr := if rst then 0 else if s.fifoRead rdEn then s.rdAddr + 1 else s.rdAddr
  rdCount :=
    if rst then 0
    else if s.fifoWrite wrEn && s.fifoRead rdEn then s.rdCount
    else if s.fifoWrite wrEn then s.rdCount + 1
    else if s.fifoRead rdEn then s.rdCount - 1
    else s.rdCount
  ram := if s.fifoWrite wrEn then Function.update s.ram s.wrAddr din else s.ram
  dout := if s.fifoRead rdEn then s.ram s.rdAddr else s.dout

structure Holds (s : SingleClock aw α) (q : List α) : Prop where
  count : s.rdCount.toNat = q.length
  wrAddr : s.wrAddr = s.rdAddr + BitVec.ofNat aw q.length
  ram : ∀ i (h : i < q.length), s.ram (s.rdAddr + BitVec.ofNat aw i) = q[i]

variable {s}

theorem holds_reset (wrEn rdEn : Bool) (din : α) : (s.next true wrEn rdEn din).Holds [] :=
  ⟨by simp [next], by simp [next], nofun⟩

private theorem toNat_one (h : 1 < 2 ^ aw) : (1 : BitVec aw).toNat = 1 :=
  (BitVec.toNat_ofNat 1 aw).trans (Nat.mod_eq_of_lt h)

section Holds
variable {q : List α} (h : s.Holds q)
include h

theorem Holds.length_lt : q.length < 2 ^ aw := h.count ▸ s.rdCount.isLt

theorem Holds.empty_iff : s.empty = true ↔ q = [] := by
  rw [empty, beq_iff_eq, h.count, List.length_eq_zero_iff]

theorem Holds.full_iff : s.full = true ↔ q.length + 1 = 2 ^ aw := by
  have := h.length_lt
  rw [full, beq_iff_eq, h.count]
  omega

theorem Holds.push (hroom : q.length + 1 < 2 ^ aw) (word dout : α) :
    Holds ⟨s.wrAddr + 1, s.rdAddr, s.rdCount + 1, Function.update s.ram s.wrAddr word, dout⟩ (q ++ [word]) := by
  have hcount := h.count
  constructor
  · rw [BitVec.toNat_add, toNat_one (by omega), hcount, Nat.mod_eq_of_lt hroom, List.length_append,
      List.length_singleton]
  · rw [List.length_append, List.length_singleton, ofNat_add_one, ← BitVec.add_assoc, h.wrAddr]
    rfl
  · intro i hi
    rw [List.length_append, List.length_singleton] at hi
    dsimp only
    by_cases hlast : i = q.length
    · subst hlast
      rw [← h.wrAddr, Function.update_self, List.getElem_concat_length rfl]
    · have hne : s.rdAddr + BitVec.ofNat aw i ≠ s.wrAddr := by
        rw [h.wrAddr]
        intro heq
        exact hlast ((ofNat_inj_near (by omega) (by omega)).mp (BitVec.add_right_inj _ |>.mp heq))
      rw [Function.update_of_ne hne, h.ram i (by omega), List.getElem_append_left]

end Holds

theorem Holds.pop {word : α} {q : List α} (h : s.Holds (word :: q)) (dout : α) :
    Holds ⟨s.wrAddr, s.rdAddr + 1, s.rdCount - 1, s.ram, dout⟩ q ∧ s.ram s.rdAddr = word := by
  have hcount := h.count
  have hlt := h.length_lt
  rw [List.length_cons] at hcount hlt
  refine ⟨⟨?_, ?_, fun i hi => ?_⟩, ?_⟩
  · have hone := toNat_one (show 1 < 2 ^ aw by omega)
    rw [BitVec.toNat_sub_of_le (by rw [BitVec.le_def, hone]; omega), hone]
    omega
  · have := h.wrAddr
    rw [List.length_cons, ofNat_add_one] at this
    rw [this]
    dsimp only
    rw [BitVec.add_assoc, BitVec.add_comm 1]
    rfl
  · have := h.ram (i + 1) (by simpa using hi)
    rw [ofNat_add_one] at this
    dsimp only
    rw [BitVec.add_assoc, BitVec.add_comm 1]
    exact this
  · have hfirst : s.ram s.rdAddr = (word :: q)[0] := by simpa using h.ram 0 (Nat.succ_pos _)
    exact hfirst

/-- A clock edge takes the oldest word out, puts the new one in, or does both. -/
theorem Holds.next {q : List α} (h : s.Holds q) (wrEn rdEn : Bool) (din : α) :
    (s.next false wrEn rdEn din).Holds
        ((if s.fifoRead rdEn then q.tail else q) ++ if s.fifoWrite wrEn then [din] else []) ∧
      (s.fifoRead rdEn = true → q = (s.next false wrEn rdEn din).dout :: q.tail) := by
  have hlt := h.length_lt
  have hread (hr : s.fifoRead rdEn = true) : ∃ word q', q = word :: q' := by
    apply List.exists_cons_of_ne_nil
    intro hnil
    simp [fifoRead, h.empty_iff.mpr hnil] at hr
  have hwrite (hw : s.fifoWrite wrEn = true) : q.length + 1 < 2 ^ aw := by
    have : ¬q.length + 1 = 2 ^ aw := fun hfull => by simp [fifoWrite, h.full_iff.mpr hfull] at hw
    omega
  cases hw : s.fifoWrite wrEn <;> cases hr : s.fifoRead rdEn
  · have hn : s.next false wrEn rdEn din = s := by simp [SingleClock.next, hw, hr]
    simpa [hn] using h
  · obtain ⟨word, q, rfl⟩ := hread hr
    have hn : s.next false wrEn rdEn din = ⟨s.wrAddr, s.rdAddr + 1, s.rdCount - 1, s.ram, s.ram s.rdAddr⟩ := by
      simp [SingleClock.next, hw, hr]
    obtain ⟨hpop, hword⟩ := h.pop (s.ram s.rdAddr)
    simpa [hn, hword] using hpop
  · have hn : s.next false wrEn rdEn din =
        ⟨s.wrAddr + 1, s.rdAddr, s.rdCount + 1, Function.update s.ram s.wrAddr din, s.dout⟩ := by
      simp [SingleClock.next, hw, hr]
    simpa [hn] using h.push (hwrite hw) din s.dout
  · obtain ⟨word, q, rfl⟩ := hread hr
    have hn : s.next false wrEn rdEn din =
        ⟨s.wrAddr + 1, s.rdAddr + 1, s.rdCount, Function.update s.ram s.wrAddr din, s.ram s.rdAddr⟩ := by
      simp [SingleClock.next, hw, hr]
    obtain ⟨-, hword⟩ := h.pop s.dout
    obtain ⟨hpop, -⟩ := (h.push (hwrite hw) din s.dout).pop (s.ram s.rdAddr)
    simpa [hn, hword, BitVec.add_sub_cancel] using hpop

end SingleClock

structure SingleClockFwft (aw : Nat) (α : Type) where
  fifo : SingleClock aw α
  prefetch : Prefetch α

structure FifoIn (α : Type) where
  wrEn : Bool
  rdEn : Bool
  din : α

namespace SingleClockFwft
variable (s : SingleClockFwft aw α) (i : FifoIn α)

def full : Bool := s.fifo.full

def empty : Bool := s.prefetch.empty

def next : SingleClockFwft aw α where
  fifo := s.fifo.next false i.wrEn (s.prefetch.fifoRdEn s.fifo.empty) i.din
  prefetch := s.prefetch.next i.rdEn s.fifo.empty s.fifo.dout

def reset (zero : α) : SingleClockFwft aw α where
  fifo := s.fifo.next true i.wrEn (s.prefetch.fifoRdEn s.fifo.empty) i.din
  prefetch := Prefetch.reset zero

def accepts : List α := if s.fifo.fifoWrite i.wrEn then [i.din] else []

def delivers : List α := s.prefetch.delivers i.rdEn

end SingleClockFwft

def singleClockCycles (aw : Nat) (α : Type) : Transducer (SingleClockFwft aw α) (FifoIn α) (FifoEvent α) where
  next := SingleClockFwft.next
  emit s i := (s.accepts i).map .accepted ++ (s.delivers i).map .delivered

namespace SingleClockFwft
variable {s : SingleClockFwft aw α}

/-- The words that are inside, the next to deliver first: those in front of the memory,
then those in it. -/
def Holds (s : SingleClockFwft aw α) (q : List α) : Prop :=
  ∃ inner, s.fifo.Holds inner ∧ q = s.prefetch.contents s.fifo.dout ++ inner

theorem holds_reset (i : FifoIn α) (zero : α) : (s.reset i zero).Holds [] :=
  ⟨[], SingleClock.holds_reset _ _ _, rfl⟩

/-- A cycle is a cycle of a queue. -/
theorem Holds.next {q : List α} (h : s.Holds q) (i : FifoIn α) :
    ∃ q', (s.next i).Holds q' ∧ s.delivers i ++ q' = q ++ s.accepts i := by
  obtain ⟨inner, hinner, rfl⟩ := h
  obtain ⟨hnext, hdout⟩ := hinner.next i.wrEn (s.prefetch.fifoRdEn s.fifo.empty) i.din
  have hread : s.fifo.fifoRead (s.prefetch.fifoRdEn s.fifo.empty) = s.prefetch.fifoRdEn s.fifo.empty := by
    cases he : s.fifo.empty <;> simp [SingleClock.fifoRead, Prefetch.fifoRdEn, he]
  have hprefetch := s.prefetch.contents_next i.rdEn s.fifo.empty s.fifo.dout (s.next i).fifo.dout
  rw [hread] at hnext hdout
  refine ⟨_, ⟨_, hnext, rfl⟩, ?_⟩
  have hkept : (s.next i).fifo.dout =
      if s.prefetch.fifoRdEn s.fifo.empty then (s.next i).fifo.dout else s.fifo.dout := by
    cases hr : s.prefetch.fifoRdEn s.fifo.empty with
    | true => rfl
    | false => simp [SingleClockFwft.next, SingleClock.next, SingleClock.fifoRead, hr]
  have hinner : (if s.prefetch.fifoRdEn s.fifo.empty then [(s.next i).fifo.dout] else []) ++
      (if s.prefetch.fifoRdEn s.fifo.empty then inner.tail else inner) = inner := by
    split
    case isTrue hr => exact (hdout hr).symm
    case isFalse => rfl
  rw [← hkept] at hprefetch
  calc s.delivers i ++ ((s.next i).prefetch.contents (s.next i).fifo.dout ++ _)
      = (s.delivers i ++ (s.next i).prefetch.contents (s.next i).fifo.dout) ++ _ := (List.append_assoc ..).symm
    _ = (s.prefetch.contents s.fifo.dout ++
          if s.prefetch.fifoRdEn s.fifo.empty then [(s.next i).fifo.dout] else []) ++ _ :=
        congrArg (· ++ _) hprefetch
    _ = s.prefetch.contents s.fifo.dout ++ inner ++ s.accepts i := by
        rw [List.append_assoc, ← List.append_assoc _ _ (if s.fifo.fifoWrite i.wrEn then [i.din] else []), hinner,
          ← List.append_assoc]
        rfl

/-- All that a run has accepted has been delivered or is still inside. -/
theorem Holds.run {q : List α} (h : s.Holds q) (ins : List (FifoIn α)) :
    ∃ q', ((singleClockCycles aw α).after s ins).Holds q' ∧
      deliveredIn ((singleClockCycles aw α).emitted s ins) ++ q' =
        q ++ acceptedIn ((singleClockCycles aw α).emitted s ins) := by
  induction ins generalizing s q with
  | nil => exact ⟨q, h, by simp [acceptedIn, deliveredIn]⟩
  | cons i ins ih =>
    obtain ⟨q₁, h₁, hstep⟩ := h.next i
    obtain ⟨q₂, h₂, hrun⟩ := ih h₁
    refine ⟨q₂, h₂, ?_⟩
    simp only [Transducer.emitted_cons, deliveredIn_append, acceptedIn_append]
    simp only [singleClockCycles, deliveredIn_append, acceptedIn_append, acceptedIn_accepted,
      acceptedIn_delivered, deliveredIn_accepted, deliveredIn_delivered, List.nil_append, List.append_nil]
    rw [List.append_assoc]
    simp only [singleClockCycles] at hrun
    rw [hrun, ← List.append_assoc, hstep, List.append_assoc]

/-- When the output is without a word, the words that were inside two cycles ago are out. -/
theorem Holds.drained {q : List α} (h : s.Holds q) (i₁ i₂ : FifoIn α) (he : ((s.next i₁).next i₂).empty = true) :
    s.delivers i₁ ++ (s.next i₁).delivers i₂ = q := by
  obtain ⟨inner, hinner, rfl⟩ := h
  obtain ⟨hempty, hout⟩ := s.prefetch.next_next_empty i₁.rdEn i₂.rdEn s.fifo.empty (s.next i₁).fifo.empty
    s.fifo.dout (s.next i₁).fifo.dout he
  have hread : s.prefetch.fifoRdEn s.fifo.empty = false := by simp [Prefetch.fifoRdEn, hempty]
  have hprefetch := s.prefetch.contents_next i₁.rdEn s.fifo.empty s.fifo.dout s.fifo.dout
  have hdout : (s.next i₁).fifo.dout = s.fifo.dout := by
    simp [SingleClockFwft.next, SingleClock.next, SingleClock.fifoRead, hread]
  rw [hread] at hprefetch
  rw [hinner.empty_iff.mp hempty, List.append_nil]
  calc s.delivers i₁ ++ (s.next i₁).delivers i₂
      = s.delivers i₁ ++ (s.next i₁).prefetch.contents s.fifo.dout := by rw [← hdout]; exact congrArg _ hout
    _ = s.prefetch.contents s.fifo.dout := by simpa [SingleClockFwft.delivers, SingleClockFwft.next] using hprefetch

end SingleClockFwft

/-- From reset on and for every sequence of requests, `fifo_singleclock_fwft` delivers
the words that it accepts in their order, keeps the others inside, at most `DEPTH - 1`
of them in the memory, and shows a word whenever one was accepted three cycles ago or
earlier and has not been delivered. -/
theorem fifo_singleclock_fwft_refines_queue (s₀ : SingleClockFwft aw α) (i₀ : FifoIn α) (zero : α)
    (ins : List (FifoIn α)) :
    let m := singleClockCycles aw α
    let s := m.after (s₀.reset i₀ zero) ins
    let es := m.emitted (s₀.reset i₀ zero) ins
    deliveredIn es <+: acceptedIn es ∧
      (∃ inner, s.fifo.Holds inner ∧ inner.length ≤ 2 ^ aw - 1 ∧
        acceptedIn es = deliveredIn es ++ (s.prefetch.contents s.fifo.dout ++ inner)) ∧
      ∀ pre i₁ i₂, ins = pre ++ [i₁, i₂] →
        (deliveredIn es).length < (acceptedIn (m.emitted (s₀.reset i₀ zero) pre)).length → s.empty = false := by
  intro m s es
  have hreset := SingleClockFwft.holds_reset (s := s₀) i₀ zero
  obtain ⟨q, ⟨inner, hinner, rfl⟩, hrun⟩ := hreset.run ins
  rw [List.nil_append] at hrun
  refine ⟨⟨_, hrun⟩, ⟨inner, hinner, ?_, hrun.symm⟩, ?_⟩
  · have := hinner.length_lt
    omega
  · rintro pre i₁ i₂ rfl hlt
    obtain ⟨q, hq, hpre⟩ := hreset.run pre
    by_contra hne
    have he : s.empty = true := by simpa using hne
    have hs : s = ((m.after (s₀.reset i₀ zero) pre).next i₁).next i₂ := Transducer.after_append ..
    rw [hs] at he
    have hdrained := hq.drained i₁ i₂ he
    have hes : es = m.emitted (s₀.reset i₀ zero) pre ++
        m.emitted (m.after (s₀.reset i₀ zero) pre) [i₁, i₂] := Transducer.emitted_append ..
    have hall : deliveredIn es = acceptedIn (m.emitted (s₀.reset i₀ zero) pre) := by
      rw [hes, deliveredIn_append, ← List.nil_append (acceptedIn _), ← hpre, ← hdrained]
      simp [m, singleClockCycles]
    rw [hall] at hlt
    exact Nat.lt_irrefl _ hlt

end Glip.Fifo
