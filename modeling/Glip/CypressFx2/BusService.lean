import Glip.CypressFx2.Toplevel
import Mathlib.Data.List.Chain

/-! How long the two directions and a flush wait for the bus of the FX2. -/
namespace Glip.CypressFx2
open Fifo Foundation
variable {aw : Nat} {α : Type} {timeout : Nat}

abbrev BusCycle (aw : Nat) (α : Type) : Type := Toplevel aw α × IfEdge aw α

section Runs
variable [OfNat α 0]

def Toplevel.busCycles (timeout : Nat) : Toplevel aw α → List (Edges aw α) → List (BusCycle aw α)
  | _, [] => []
  | s, e :: es => (e.1.map (s, ·)).toList ++ busCycles timeout (s.next timeout e.1 e.2) es

theorem Toplevel.busCycles_none (s : Toplevel aw α) (clk : Option (ClkEdge aw α)) (es : List (Edges aw α)) :
    s.busCycles timeout ((none, clk) :: es) = (s.next timeout none clk).busCycles timeout es := rfl

theorem Toplevel.busCycles_some (s : Toplevel aw α) (i : IfEdge aw α) (clk : Option (ClkEdge aw α)) (es : List (Edges aw α)) :
    s.busCycles timeout ((some i, clk) :: es) = (s, i) :: (s.next timeout (some i) clk).busCycles timeout es := rfl

namespace BusCycle
variable (a b : BusCycle aw α)

def wires (timeout : Nat) (a : BusCycle aw α) : BusWires := a.1.wires timeout a.2.flags a.2.intRst

/-- A cycle leaves to the next one whose turn it is, the timer, and a word that it has not written. -/
structure Leaves (timeout : Nat) (a : BusCycle aw α) (s : Toplevel aw α) : Prop where
  precedence : s.precedence = (a.wires timeout).nxtPrecedence
  counter : s.counter = (a.wires timeout).nxtCounter
  word : (a.wires timeout).wr = false → a.1.egress.empty = false → s.egress.empty = false

variable {a} {s : Toplevel aw α}

theorem Leaves.clk (h : a.Leaves timeout s) (clk : Option (ClkEdge aw α)) : a.Leaves timeout (s.next timeout none clk) :=
  ⟨h.precedence, h.counter, h.word⟩

theorem leaves_next (hrst : a.2.intRst = false) (clk : Option (ClkEdge aw α)) :
    a.Leaves timeout (a.1.next timeout (some a.2) clk) := by
  have hready : (a.wires timeout).intFifoOutReady = (a.wires timeout).wr := by
    rw [wires, hrst]
    rcases a.1.wires_cases timeout a.2.flags with ⟨-, -, hw⟩ | ⟨-, -, hw⟩ | ⟨-, -, -, hw⟩ | ⟨-, -, -, hw⟩ <;> rw [hw]
  refine ⟨by simp [Toplevel.next, hrst, wires], by simp [Toplevel.next, hrst, wires], fun hwr hword => ?_⟩
  have hnext : (a.1.next timeout (some a.2) clk).egress.prefetch =
      a.1.egress.prefetch.next (a.wires timeout).intFifoOutReady a.1.egress.rd.empty a.1.egress.rd.dout := by
    simp [Toplevel.next, DualClock.next, Toplevel.egressRead, hrst, wires]
  rw [DualClock.empty, hnext, hready, hwr]
  exact Prefetch.next_empty _ _ _ hword

end BusCycle

namespace Toplevel
variable {s : Toplevel aw α}

/-- Each cycle of the bus finds what the one before has left. -/
theorem busCycles_chain (es : List (Edges aw α)) (hrst : ∀ e ∈ es, ∀ i ∈ e.1, i.intRst = false) :
    (s.busCycles timeout es).IsChain (fun a b => a.Leaves timeout b.1) ∧
      ∀ a : BusCycle aw α, a.Leaves timeout s → ∀ b ∈ (s.busCycles timeout es).head?, a.Leaves timeout b.1 := by
  induction es generalizing s with
  | nil => exact ⟨.nil, fun _ _ b hb => absurd hb (Option.not_mem_none b)⟩
  | cons e es ih =>
    obtain ⟨_ | i, clk⟩ := e
    · obtain ⟨hchain, hhead⟩ := ih (s := s.next timeout none clk) fun e he => hrst e (.tail _ he)
      rw [busCycles_none]
      exact ⟨hchain, fun a ha => hhead a (ha.clk clk)⟩
    · obtain ⟨hchain, hhead⟩ := ih (s := s.next timeout (some i) clk) fun e he => hrst e (.tail _ he)
      have hi : i.intRst = false := hrst (some i, clk) (.head es) i rfl
      rw [busCycles_some]
      refine ⟨List.isChain_cons.mpr ⟨hhead (s, i) (BusCycle.leaves_next hi clk), hchain⟩, fun a ha b hb => ?_⟩
      obtain rfl := Option.some.inj hb
      exact ha

theorem busCycles_rst (es : List (Edges aw α)) (hrst : ∀ e ∈ es, ∀ i ∈ e.1, i.intRst = false) :
    ∀ a ∈ s.busCycles timeout es, a.2.intRst = false := by
  induction es generalizing s with
  | nil => exact fun a ha => absurd ha List.not_mem_nil
  | cons e es ih =>
    have ih := ih (s := s.next timeout e.1 e.2) fun e he => hrst e (.tail _ he)
    intro a ha
    rcases List.mem_append.mp ha with ha | ha
    · obtain ⟨i, hi, rfl⟩ := Option.mem_map.mp (Option.mem_toList.mp ha)
      exact hrst e (.head es) i hi
    · exact ih a ha

theorem busCycles_append (s : Toplevel aw α) (a b : List (Edges aw α)) :
    s.busCycles timeout (a ++ b) = s.busCycles timeout a ++ ((toplevelEdges timeout).after s a).busCycles timeout b := by
  induction a generalizing s with
  | nil => rfl
  | cons e a ih =>
    rw [List.cons_append, busCycles, busCycles, ih, List.append_assoc]
    rfl

end Toplevel

end Runs

namespace BusCycle
variable {a b c : BusCycle aw α}

def canWrite (a : BusCycle aw α) : Bool := a.1.canWrite a.2.flags

def canRead (a : BusCycle aw α) : Bool := a.1.canRead a.2.flags

/-- A write that does not go lets a read go first, and then it is its turn. -/
theorem write_next (ha : a.2.intRst = false) (hb : b.2.intRst = false) (hnext : a.Leaves timeout b.1)
    (hwa : a.canWrite = true) (hwb : b.canWrite = true) : (a.wires timeout).wr = true ∨ (b.wires timeout).wr = true := by
  have hturn := hnext.precedence
  rw [wires, ha] at hturn ⊢
  rcases a.1.wires_cases timeout a.2.flags with ⟨-, hno, -⟩ | ⟨-, -, hw⟩ | ⟨-, -, -, hw⟩ | ⟨-, hno, -⟩
  · exact absurd (hno.symm.trans hwa) Bool.false_ne_true
  · left
    rw [hw]
  · right
    rw [hw] at hturn
    rw [wires, hb]
    rcases b.1.wires_cases timeout b.2.flags with ⟨-, hno, -⟩ | ⟨-, -, hw'⟩ | ⟨-, hor, -⟩ | ⟨-, hno, -⟩
    · exact absurd (hno.symm.trans hwb) Bool.false_ne_true
    · rw [hw']
    · rcases hor with hread | hno
      · exact absurd (hturn.symm.trans hread) Precedence.noConfusion
      · exact absurd (hno.symm.trans hwb) Bool.false_ne_true
    · exact absurd (hno.symm.trans hwb) Bool.false_ne_true
  · exact absurd (hno.symm.trans hwa) Bool.false_ne_true

/-- After a write a read goes, if the timer is not at its end. -/
theorem read_after_write (htimeout : 2 ≤ timeout) (ha : a.2.intRst = false) (hb : b.2.intRst = false)
    (hnext : a.Leaves timeout b.1) (hwr : (a.wires timeout).wr = true) (hrb : b.canRead = true) :
    (b.wires timeout).rd = true := by
  have hturn := hnext.precedence
  have hcount := hnext.counter
  rw [wires, ha] at hturn hcount hwr
  rcases a.1.wires_cases timeout a.2.flags with ⟨-, -, hw⟩ | ⟨-, -, hw⟩ | ⟨-, -, -, hw⟩ | ⟨-, -, -, hw⟩
  case inr.inl =>
    rw [hw] at hturn hcount
    dsimp only at hturn hcount
    rw [wires, hb]
    rcases b.1.wires_cases timeout b.2.flags with ⟨hone, -⟩ | ⟨-, hor, -⟩ | ⟨-, -, -, hw'⟩ | ⟨hno, -⟩
    · omega
    · rcases hor with hwrite | hno
      · exact absurd (hturn.symm.trans hwrite) Precedence.noConfusion
      · exact absurd (hno.symm.trans hrb) Bool.false_ne_true
    · rw [hw']
    · exact absurd (hno.symm.trans hrb) Bool.false_ne_true
  all_goals
    rw [hw] at hwr
    exact absurd hwr Bool.false_ne_true

/-- A read that does not go waits for a flush and a write. -/
theorem read_next (htimeout : 2 ≤ timeout) (ha : a.2.intRst = false) (hb : b.2.intRst = false) (hc : c.2.intRst = false)
    (hab : a.Leaves timeout b.1) (hbc : b.Leaves timeout c.1) (hra : a.canRead = true) (hrb : b.canRead = true)
    (hrc : c.canRead = true) : (a.wires timeout).rd = true ∨ (b.wires timeout).rd = true ∨ (c.wires timeout).rd = true := by
  have hcount := hab.counter
  by_cases hwa : (a.wires timeout).wr = true
  · exact .inr (.inl (read_after_write htimeout ha hb hab hwa hrb))
  by_cases hwb : (b.wires timeout).wr = true
  · exact .inr (.inr (read_after_write htimeout hb hc hbc hwb hrc))
  rw [wires, ha] at hcount hwa ⊢
  rw [wires, hb] at hwb ⊢
  rcases a.1.wires_cases timeout a.2.flags with ⟨hone, -, hw⟩ | ⟨-, -, hw⟩ | ⟨-, -, -, hw⟩ | ⟨hno, -⟩
  · -- the flush has run the timer down
    rw [hw, hone] at hcount
    dsimp only at hcount
    rcases b.1.wires_cases timeout b.2.flags with ⟨hone', -⟩ | ⟨-, -, hw'⟩ | ⟨-, -, -, hw'⟩ | ⟨hno, -⟩
    · omega
    · rw [hw'] at hwb
      exact absurd rfl hwb
    · right
      left
      rw [hw']
    · exact absurd (hno.symm.trans hrb) Bool.false_ne_true
  · rw [hw] at hwa
    exact absurd rfl hwa
  · left
    rw [hw]
  · exact absurd (hno.symm.trans hra) Bool.false_ne_true

/-- The timer runs down while nothing goes to the FX2, and then a flush goes or a word is waiting. -/
theorem timer_ends {n : Nat} {rest : List (BusCycle aw α)} (hchain : (b :: rest).IsChain (fun a b => a.Leaves timeout b.1))
    (hrst : ∀ c ∈ b :: rest, c.2.intRst = false) (hcount : b.1.counter = n + 1) (hlen : n + 1 ≤ rest.length) :
    ∃ c ∈ b :: rest, (c.wires timeout).wr = true ∨ (c.wires timeout).pktend = true ∨ c.2.flags.epinFifoFull = true := by
  induction n generalizing b rest with
  | zero =>
    obtain ⟨c, rest, rfl⟩ := List.exists_cons_of_length_pos (Nat.lt_of_lt_of_le Nat.zero_lt_one hlen)
    have hleaves := (List.isChain_cons.mp hchain).1 c rfl
    have hb := hrst b (.head _)
    have hc := hrst c (.tail _ (.head _))
    rcases b.1.wires_cases timeout b.2.flags with ⟨-, -, hw⟩ | ⟨-, -, hw⟩ | ⟨-, -, hone, hw⟩ | ⟨-, -, hne, -⟩
    · exact ⟨b, .head _, .inr (.inl (by rw [wires, hb, hw]))⟩
    · exact ⟨b, .head _, .inl (by rw [wires, hb, hw])⟩
    · -- a read has gone, and the word that it has kept waiting has the next turn
      refine ⟨c, .tail _ (.head _), ?_⟩
      have hnwr : (b.wires timeout).wr = false := by rw [wires, hb, hw]
      have hwaits : b.1.egress.empty = false := by simpa using (Bool.and_eq_true_iff.mp (hone hcount)).2
      have hword := hleaves.word hnwr hwaits
      have hturn := hleaves.precedence
      have hzero := hleaves.counter
      rw [wires, hb, hw] at hturn hzero
      dsimp only at hturn hzero
      cases hfull : c.2.flags.epinFifoFull with
      | true => exact .inr (.inr rfl)
      | false =>
        have hwrite : c.1.canWrite c.2.flags = true := by simp [Toplevel.canWrite, hfull, hword]
        rcases c.1.wires_cases timeout c.2.flags with ⟨hone', -⟩ | ⟨-, -, hw'⟩ | ⟨-, hor, -⟩ | ⟨-, hno, -⟩
        · omega
        · exact .inl (by rw [wires, hc, hw'])
        · rcases hor with hread | hno
          · exact absurd (hturn.symm.trans hread) Precedence.noConfusion
          · exact absurd (hno.symm.trans hwrite) Bool.false_ne_true
        · exact absurd (hno.symm.trans hwrite) Bool.false_ne_true
    · exact absurd hcount hne
  | succ n ih =>
    obtain ⟨c, rest, rfl⟩ := List.exists_cons_of_length_pos (Nat.lt_of_lt_of_le (Nat.succ_pos _) hlen)
    have hleaves := (List.isChain_cons.mp hchain).1 c rfl
    have hb := hrst b (.head _)
    by_cases hwr : (b.wires timeout).wr = true
    · exact ⟨b, .head _, .inl hwr⟩
    · have hnext : c.1.counter = n + 1 := by
        rw [hleaves.counter]
        rw [wires, hb] at hwr ⊢
        rcases b.1.wires_cases timeout b.2.flags with ⟨-, -, hw⟩ | ⟨-, -, hw⟩ | ⟨-, -, -, hw⟩ | ⟨-, -, -, hw⟩
        case inr.inl =>
          rw [hw] at hwr
          exact absurd rfl hwr
        all_goals
          rw [hw]
          dsimp only
          omega
      obtain ⟨d, hd, hgoes⟩ := ih (List.isChain_cons.mp hchain).2 (fun d hd => hrst d (.tail _ hd)) hnext
        (by rw [List.length_cons] at hlen; omega)
      exact ⟨d, .tail _ hd, hgoes⟩

end BusCycle

section Results
variable [OfNat α 0] {s₀ : Toplevel aw α} {es : List (Edges aw α)}

/-- In every run, whatever the FX2, the logic and the two clocks do: a direction that can go in every cycle goes in
one of two cycles to the FX2, and in one of three from it. -/
theorem fx2_bus_service (htimeout : 2 ≤ timeout) (hrst : ∀ e ∈ es, ∀ i ∈ e.1, i.intRst = false) :
    (∀ a b, [a, b] <:+: s₀.busCycles timeout es → a.canWrite = true → b.canWrite = true →
      (a.wires timeout).wr = true ∨ (b.wires timeout).wr = true) ∧
    (∀ a b c, [a, b, c] <:+: s₀.busCycles timeout es → a.canRead = true → b.canRead = true → c.canRead = true →
      (a.wires timeout).rd = true ∨ (b.wires timeout).rd = true ∨ (c.wires timeout).rd = true) := by
  have hchain : (s₀.busCycles timeout es).IsChain (fun a b => a.Leaves timeout b.1) := (s₀.busCycles_chain es hrst).1
  have hrst : ∀ a ∈ s₀.busCycles timeout es, a.2.intRst = false := s₀.busCycles_rst es hrst
  constructor
  · intro a b hin hwa hwb
    have hpart := hchain.infix hin
    obtain ⟨hab, -⟩ := List.isChain_cons.mp hpart
    exact BusCycle.write_next (hrst a (hin.subset (by simp))) (hrst b (hin.subset (by simp))) (hab b rfl) hwa hwb
  · intro a b c hin hra hrb hrc
    have hpart := hchain.infix hin
    obtain ⟨hab, hrest⟩ := List.isChain_cons.mp hpart
    obtain ⟨hbc, -⟩ := List.isChain_cons.mp hrest
    exact BusCycle.read_next htimeout (hrst a (hin.subset (by simp))) (hrst b (hin.subset (by simp)))
      (hrst c (hin.subset (by simp))) (hab b rfl) (hbc c rfl) hra hrb hrc

/-- Three cycles in which there are words for both directions. -/
theorem fx2_bus_service_first :
    let idle : DualClock 4 Nat := ⟨⟨0, 0, 0, 0, false, []⟩, ⟨0, 0, 0, 0, true, 0⟩, fun _ => 0, .reset 0⟩
    let s₀ : Toplevel 4 Nat := ⟨.read, 0, { idle with prefetch := ⟨true, true, true, 7, 6⟩ }, idle⟩
    let io : IfEdge 4 Nat := ⟨false, ⟨true, true⟩, 5, 0, 1⟩
    let cycles := s₀.busCycles 3 (List.replicate 3 (some io, none))
    (cycles.map (·.canWrite) = [true, true, true] ∧ cycles.map (·.canRead) = [true, true, true]) ∧
      ∀ a b c, cycles = [a, b, c] → ((a.wires 3).wr = true ∨ (b.wires 3).wr = true) ∧
        ((a.wires 3).rd = true ∨ (b.wires 3).rd = true ∨ (c.wires 3).rd = true) := by
  intro idle s₀ io cycles
  have hready : cycles.map (·.canWrite) = [true, true, true] ∧ cycles.map (·.canRead) = [true, true, true] := by decide
  refine ⟨hready, fun a b c hcycles => ?_⟩
  have hservice := @fx2_bus_service 4 Nat 3 _ s₀ (List.replicate 3 (some io, none)) (by decide) (by decide)
  have hpart : [a, b, c] <:+: cycles := hcycles ▸ List.infix_rfl
  rw [hcycles] at hready
  obtain ⟨hwrite, hread⟩ := hready
  simp only [List.map_cons, List.cons.injEq] at hwrite hread
  exact ⟨hservice.1 a b ((List.prefix_append [a, b] [c]).isInfix.trans hpart) hwrite.1 hwrite.2.1,
    hservice.2 a b c hpart hread.1 hread.2.1 hread.2.2.1⟩

/-- A word that is written to the FX2 does not stay in a buffer of it that is not full: within one cycle more than
`FORCE_SEND_TIMEOUT` there is another write, or a flush, or the buffer is full. -/
theorem fx2_flush_due (htimeout : 1 ≤ timeout) (hrst : ∀ e ∈ es, ∀ i ∈ e.1, i.intRst = false) (a : BusCycle aw α)
    (rest : List (BusCycle aw α)) (hin : a :: rest <:+: s₀.busCycles timeout es) (hwr : (a.wires timeout).wr = true)
    (hlen : rest.length = timeout + 1) :
    ∃ b ∈ rest, (b.wires timeout).wr = true ∨ (b.wires timeout).pktend = true ∨ b.2.flags.epinFifoFull = true := by
  have hchain : (s₀.busCycles timeout es).IsChain (fun a b => a.Leaves timeout b.1) := (s₀.busCycles_chain es hrst).1
  have hrst : ∀ a ∈ s₀.busCycles timeout es, a.2.intRst = false := s₀.busCycles_rst es hrst
  obtain ⟨b, rest, rfl⟩ := List.exists_cons_of_length_pos (show 0 < rest.length by omega)
  have hpart := hchain.infix hin
  obtain ⟨hab, hrest⟩ := List.isChain_cons.mp hpart
  have hcount := (hab b rfl).counter
  rw [BusCycle.wires, hrst a (hin.subset (by simp))] at hcount hwr
  rcases a.1.wires_cases timeout a.2.flags with ⟨-, -, hw⟩ | ⟨-, -, hw⟩ | ⟨-, -, -, hw⟩ | ⟨-, -, -, hw⟩
  case inr.inl =>
    rw [hw] at hcount
    rw [List.length_cons] at hlen
    obtain ⟨n, rfl⟩ := Nat.exists_eq_add_of_le' htimeout
    exact BusCycle.timer_ends hrest (fun c hc => hrst c (hin.subset (.tail _ hc))) hcount (by omega)
  all_goals
    rw [hw] at hwr
    exact absurd hwr Bool.false_ne_true

/-- One word of the logic, and the FX2 with words all the time. -/
theorem fx2_flush_due_word :
    let cdc : DualClock 4 Nat := ⟨⟨0, 0, 0, 0, false, []⟩, ⟨0, 0, 0, 0, true, 0⟩, fun _ => 0, .reset 0⟩
    let io : IfEdge 4 Nat := ⟨false, ⟨true, true⟩, 5, 0, 1⟩
    let s₀ : Toplevel 4 Nat := ⟨.write, 0, cdc, cdc⟩
    let lead : List (Edges 4 Nat) := (none, some ⟨false, false, true, 7, 0, 0⟩) :: List.replicate 5 (some io, none)
    let s := (toplevelEdges 3).after s₀ lead
    let rest := (s.next 3 (some io) none).busCycles 3 (List.replicate 4 (some io, none))
    ∃ b ∈ rest, (b.wires 3).wr = true ∨ (b.wires 3).pktend = true ∨ b.2.flags.epinFifoFull = true := by
  intro cdc io s₀ lead s rest
  have hin : (s, io) :: rest <:+: s₀.busCycles 3 (lead ++ List.replicate 5 (some io, none)) := by
    rw [Toplevel.busCycles_append]
    exact (List.suffix_append _ _).isInfix
  exact fx2_flush_due (by decide) (by decide) (s, io) rest hin (by decide) rfl

end Results
end Glip.CypressFx2
