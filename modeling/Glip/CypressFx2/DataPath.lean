import Glip.CypressFx2.Toplevel

/-! The words that pass between the FX2 and the logic, in both directions. -/
namespace Glip.CypressFx2
open Fifo Foundation
variable {aw : Nat} {α : Type} [OfNat α 0] {timeout : Nat}

def BusEvent.readWord : BusEvent α → Option α
  | .read word => some word
  | _ => none

def BusEvent.wroteWord : BusEvent α → Option α
  | .wrote word => some word
  | _ => none

def BusEvent.tookWord : BusEvent α → Option α
  | .took word => some word
  | _ => none

def BusEvent.gaveWord : BusEvent α → Option α
  | .gave word => some word
  | _ => none

namespace Toplevel
variable {s : Toplevel aw α} {e : Edges aw α}

/-- A read finds room in its FIFO, and no other word goes into it. -/
theorem accepts_ingress (hrst : ∀ i ∈ e.1, i.intRst = false) :
    s.ingress.accepts (e.1.map (s.ingressWrite timeout)) =
      ((toplevelEdges timeout).emit s e).filterMap BusEvent.readWord := by
  obtain ⟨io, clk⟩ := e
  have hclk : (clk.toList.flatMap s.clkEvents).filterMap BusEvent.readWord = [] := by
    cases clk with
    | none => rfl
    | some c =>
      simp only [Option.toList_some, List.flatMap_singleton, clkEvents, List.filterMap_append, filterMap_guarded, BusEvent.readWord,
        Option.toList_none, ite_self, List.append_nil]
  rw [toplevelEdges, List.filterMap_append, hclk, List.append_nil]
  cases io with
  | none => rfl
  | some i =>
    simp only [Option.map_some, Option.toList_some, List.flatMap_singleton, busEvents, ingressWrite, hrst i rfl,
      DualClock.accepts]
    rcases s.wires_cases timeout i.flags with ⟨-, -, hw⟩ | ⟨-, -, hw⟩ | ⟨hread, -, -, hw⟩ | ⟨-, -, -, hw⟩
    case inr.inr.inl =>
      have hroom : s.ingress.full = false := by simpa using (Bool.and_eq_true_iff.mp hread).2
      simp [hw, hroom, BusEvent.readWord]
    all_goals simp [hw, BusEvent.readWord]

/-- A write has a word of its FIFO, which takes it out. -/
theorem delivers_egress (hrst : ∀ i ∈ e.1, i.intRst = false) :
    s.egress.delivers (e.1.map (s.egressRead timeout)) =
      ((toplevelEdges timeout).emit s e).filterMap BusEvent.wroteWord := by
  obtain ⟨io, clk⟩ := e
  have hclk : (clk.toList.flatMap s.clkEvents).filterMap BusEvent.wroteWord = [] := by
    cases clk with
    | none => rfl
    | some c =>
      simp only [Option.toList_some, List.flatMap_singleton, clkEvents, List.filterMap_append, filterMap_guarded, BusEvent.wroteWord,
        Option.toList_none, ite_self, List.append_nil]
  rw [toplevelEdges, List.filterMap_append, hclk, List.append_nil]
  cases io with
  | none => rfl
  | some i =>
    simp only [Option.map_some, Option.toList_some, List.flatMap_singleton, busEvents, egressRead, hrst i rfl,
      DualClock.delivers, Prefetch.delivers]
    rcases s.wires_cases timeout i.flags with ⟨-, -, hw⟩ | ⟨hwrite, -, hw⟩ | ⟨-, -, -, hw⟩ | ⟨-, -, -, hw⟩
    case inr.inl =>
      have hword : s.egress.empty = false := by simpa using (Bool.and_eq_true_iff.mp hwrite).2
      have hempty : s.egress.prefetch.empty = false := hword
      simp [hw, hempty, BusEvent.wroteWord]
    all_goals simp [hw, BusEvent.wroteWord]

theorem accepts_egress : s.egress.accepts (e.2.map ClkEdge.egressWrite) =
    ((toplevelEdges timeout).emit s e).filterMap BusEvent.tookWord := by
  obtain ⟨io, clk⟩ := e
  have hio : (io.toList.flatMap (s.busEvents timeout)).filterMap BusEvent.tookWord = [] := by
    cases io with
    | none => rfl
    | some i =>
      simp only [Option.toList_some, List.flatMap_singleton, busEvents, List.filterMap_append, filterMap_guarded, BusEvent.tookWord,
        Option.toList_none, ite_self, List.append_nil]
  rw [toplevelEdges, List.filterMap_append, hio, List.nil_append]
  cases clk with
  | none => rfl
  | some c =>
    simp only [Option.map_some, Option.toList_some, List.flatMap_singleton, clkEvents, ClkEdge.egressWrite,
      DualClock.accepts, List.filterMap_append, filterMap_guarded, BusEvent.tookWord, Option.toList_none, ite_self, List.append_nil]

theorem delivers_ingress : s.ingress.delivers (e.2.map ClkEdge.ingressRead) =
    ((toplevelEdges timeout).emit s e).filterMap BusEvent.gaveWord := by
  obtain ⟨io, clk⟩ := e
  have hio : (io.toList.flatMap (s.busEvents timeout)).filterMap BusEvent.gaveWord = [] := by
    cases io with
    | none => rfl
    | some i =>
      simp only [Option.toList_some, List.flatMap_singleton, busEvents, List.filterMap_append, filterMap_guarded, BusEvent.gaveWord,
        Option.toList_none, ite_self, List.append_nil]
  rw [toplevelEdges, List.filterMap_append, hio, List.nil_append]
  cases clk with
  | none => rfl
  | some c =>
    simp only [Option.map_some, Option.toList_some, List.flatMap_singleton, clkEvents, ClkEdge.ingressRead,
      DualClock.delivers, Prefetch.delivers, List.filterMap_append, filterMap_guarded, BusEvent.gaveWord, Option.toList_none,
      ite_self, List.nil_append]
    rfl

structure Carried (bus : List (BusEvent α)) (s : Toplevel aw α) : Prop where
  ingress : s.ingress.Sound
  egress : s.egress.Sound
  read : bus.filterMap BusEvent.readWord = bus.filterMap BusEvent.gaveWord ++ s.ingress.contents
  written : bus.filterMap BusEvent.tookWord = bus.filterMap BusEvent.wroteWord ++ s.egress.contents

theorem IsReset.carried (h : s.IsReset) (haw : 0 < aw) : Carried [] s where
  ingress := h.ingress.sound haw
  egress := h.egress.sound haw
  read := (h.ingress.contents_eq haw).symm
  written := (h.egress.contents_eq haw).symm

theorem Carried.next {bus : List (BusEvent α)} (h : Carried bus s) (he : s.Allows timeout e) :
    Carried (bus ++ (toplevelEdges timeout).emit s e) (s.next timeout e.1 e.2) := by
  obtain ⟨hin, hout, hio, hclk⟩ := he
  have hmap {β γ : Type} {w : Option β} {g : β → γ} {p : γ → Prop} (h : ∀ i ∈ w, p (g i)) : ∀ x ∈ w.map g, p x := by
    intro x hx
    obtain ⟨i, hi, rfl⟩ := Option.mem_map.mp hx
    exact h i hi
  obtain ⟨hingress, hread⟩ := h.ingress.next hin (hmap hio) (hmap hclk)
  obtain ⟨hegress, hwrite⟩ := h.egress.next hout (hmap hclk) (hmap hio)
  rw [delivers_ingress, accepts_ingress hio] at hread
  rw [delivers_egress hio, accepts_egress] at hwrite
  refine ⟨hingress, hegress, ?_, ?_⟩
  · rw [List.filterMap_append, List.filterMap_append, h.read, List.append_assoc, ← hread, List.append_assoc]
    rfl
  · rw [List.filterMap_append, List.filterMap_append, h.written, List.append_assoc, ← hwrite, List.append_assoc]
    rfl

end Toplevel

/-- From reset on, for every order of the edges of the two clocks and whatever the FX2 and the logic do: the words that
are read from the FX2 are those that the logic gets and behind them those in the FIFO, and the words that the logic gives
are those that are written to the FX2 and behind them those in the other FIFO. -/
theorem fx2_data_path (haw : 0 < aw) (s₀ : Toplevel aw α) (hreset : s₀.IsReset) (es : List (Edges aw α))
    (hrun : s₀.Run timeout es) :
    let bus := (toplevelEdges timeout).emitted s₀ es
    let s := (toplevelEdges timeout).after s₀ es
    bus.filterMap BusEvent.readWord = bus.filterMap BusEvent.gaveWord ++ s.ingress.contents ∧
      bus.filterMap BusEvent.tookWord = bus.filterMap BusEvent.wroteWord ++ s.egress.contents := by
  have h : Toplevel.Carried _ _ := Transducer.history (fun _ _ _ h he => h.next he) (hreset.carried haw) hrun
  exact ⟨h.read, h.written⟩

/-- Words that are read while one of the logic is written. -/
theorem fx2_data_path_both :
    let cdc : DualClock 4 Nat := ⟨⟨0, 0, 0, 0, false, []⟩, ⟨0, 0, 0, 0, true, 0⟩, fun _ => 0, .reset 0⟩
    let s₀ : Toplevel 4 Nat := ⟨.write, 0, cdc, cdc⟩
    let es : List (Edges 4 Nat) := (none, some ⟨false, false, true, 7, 0, 0⟩) ::
      List.replicate 6 (some ⟨false, ⟨true, true⟩, 5, 0, 1⟩, none)
    let bus := (toplevelEdges 8).emitted s₀ es
    let s := (toplevelEdges 8).after s₀ es
    .wrote 7 ∈ bus ∧ bus.filterMap BusEvent.readWord = bus.filterMap BusEvent.gaveWord ++ s.ingress.contents ∧
      bus.filterMap BusEvent.tookWord = bus.filterMap BusEvent.wroteWord ++ s.egress.contents := by
  intro cdc s₀ es
  have hcdc : cdc.IsReset := by constructor <;> rfl
  exact ⟨by decide, fx2_data_path (by decide) s₀ ⟨rfl, rfl, hcdc, hcdc⟩ es (by decide)⟩

end Glip.CypressFx2
