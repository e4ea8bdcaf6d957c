import Glip.CypressFx3.EgressFlush
import Glip.CypressFx3.IngressReserve

/-! The words that pass between the FX3 and the logic, in both directions. -/
namespace Glip.CypressFx3
open Fifo Foundation
variable {aw : Nat} {α : Type}

/-- A cycle of `clk_io_100` on the pins of the FX3: the strobes, the flag that it has nothing to give, `fx3_dq` as the
FX3 drives it and as the toplevel does, and whether the word that is written leaves the FIFO with it. -/
structure BusCycle (α : Type) where
  rd : Bool
  wr : Bool
  outEmpty : Bool
  dqIn : α
  dqOut : α
  ready : Bool
  deriving DecidableEq

inductive BusEvent (α : Type)
  | cycle (c : BusCycle α)
  | took (word : α)
  | gave (word : α)
  deriving DecidableEq

def BusEvent.busCycle : BusEvent α → Option (BusCycle α)
  | .cycle c => some c
  | _ => none

def BusEvent.tookWord : BusEvent α → Option α
  | .took word => some word
  | _ => none

def BusEvent.gaveWord : BusEvent α → Option α
  | .gave word => some word
  | _ => none

def BusCycle.read (strobe : Bool) (c : BusCycle α) : Option α := if strobe && !c.outEmpty then some c.dqIn else none

def BusCycle.written (c : BusCycle α) : Option (α × Bool) := if c.wr then some (c.dqOut, c.ready) else none

/-- The strobes that ask for words, three cycles before these. -/
def strobes (cycles : List (BusCycle α)) : List Bool := [false, false, false] ++ cycles.map BusCycle.rd

def wordsRead (cycles : List (BusCycle α)) : List α :=
  ((strobes cycles).zip cycles).filterMap fun p => p.2.read p.1

/-- The words that are written are the next ones, each until it is marked as taken. -/
inductive Presents : List (α × Bool) → List α → List α → Prop
  | nil (words : List α) : Presents [] words words
  | ignored {word : α} {written : List (α × Bool)} {words left : List α} :
    Presents written (word :: words) left → Presents ((word, false) :: written) (word :: words) left
  | taken {word : α} {written : List (α × Bool)} {words left : List α} :
    Presents written words left → Presents ((word, true) :: written) (word :: words) left

theorem Presents.append {written : List (α × Bool)} {words left : List α} (h : Presents written words left)
    (more : List α) : Presents written (words ++ more) (left ++ more) := by
  induction h with
  | nil words => exact .nil _
  | ignored _ ih => exact .ignored ih
  | taken _ ih => exact .taken ih

theorem Presents.trans {written written' : List (α × Bool)} {words left left' : List α}
    (h : Presents written words left) (h' : Presents written' left left') :
    Presents (written ++ written') words left' := by
  induction h with
  | nil words => exact h'
  | ignored _ ih => exact .ignored (ih h')
  | taken _ ih => exact .taken (ih h')

/-- The third last strobe decides whether the next cycle reads. -/
theorem wordsRead_concat {cycles : List (BusCycle α)} {earlier : List Bool} {v b a : Bool} (c : BusCycle α)
    (h : strobes cycles = earlier ++ [v, b, a]) :
    wordsRead (cycles ++ [c]) = wordsRead cycles ++ (c.read v).toList ∧
      strobes (cycles ++ [c]) = earlier ++ [v] ++ [b, a, c.rd] := by
  have hlen : earlier.length = cycles.length := by
    have hlengths := congrArg List.length h
    simp only [strobes, List.length_append, List.length_map, List.length_cons, List.length_nil] at hlengths
    omega
  have hnext : strobes (cycles ++ [c]) = earlier ++ [v] ++ [b, a, c.rd] := by
    rw [strobes, List.map_append, ← List.append_assoc]
    change strobes cycles ++ [c.rd] = _
    simp [h]
  refine ⟨?_, hnext⟩
  have hbefore : (strobes cycles).zip cycles = earlier.zip cycles := by
    conv_lhs => rw [h, ← List.append_nil cycles, List.zip_append hlen]
    simp
  rw [wordsRead, wordsRead, hnext, hbefore, List.append_assoc, List.zip_append hlen, List.filterMap_append]
  congr 1

def FsmState.loaded : FsmState → Bool
  | .delayWr | .flgARcvd | .waitFlgB | .swWrite => true
  | _ => false

namespace Fsm
variable (s : Fsm) (f : Flags) (inAlmostFull outEmpty : Bool)

/-- The machine goes there from a FIFO with a word, and leaves it alone until it writes. -/
theorem loaded_next (h : (s.wires f inAlmostFull outEmpty).nxtState.loaded = true) :
    (s.state.loaded = true ∨ outEmpty = false) ∧ (s.wires f inAlmostFull outEmpty).intFifoOutReady = false := by
  obtain ⟨st, idle, flush, count⟩ := s
  cases st
  case idle =>
    revert h
    simp only [wires]
    split_ifs with hegress hflush hgo
    · intro _
      exact ⟨.inr (by simpa using (Bool.and_eq_true_iff.mp hegress).2), rfl⟩
    all_goals
      intro h
      cases h
  case delayWr | flgARcvd => exact ⟨.inl rfl, rfl⟩
  case waitFlgB =>
    refine ⟨.inl rfl, ?_⟩
    simp only [wires]
    split_ifs <;> rfl
  case swWrite | flgCRcvd | swRead | readDrain1 | readDrain2 | readDrain3 | readDrain4 => cases h
  all_goals
    revert h
    simp only [wires]
    split_ifs <;> intro h <;> cases h

/-- Whenever a word is written or leaves the FIFO, there is one. -/
theorem word_of_loaded (h : s.state.loaded = true → outEmpty = false) :
    ((s.wires f inAlmostFull outEmpty).wr = true → outEmpty = false) ∧
      ((s.wires f inAlmostFull outEmpty).intFifoOutReady = true → (s.wires f inAlmostFull outEmpty).wr = true) := by
  obtain ⟨st, idle, flush, count⟩ := s
  cases st
  case write =>
    simp only [wires]
    split_ifs with hempty hfull
    · exact ⟨False.elim, False.elim⟩
    · exact ⟨fun _ => by simpa using hempty, False.elim⟩
    · exact ⟨fun _ => by simpa using hempty, fun _ => rfl⟩
  case swWrite => exact ⟨fun _ => h rfl, fun _ => rfl⟩
  case delayWr | flgARcvd | writeFlush | flush | flgCRcvd | swRead | readDrain1 | readDrain2 | readDrain3 | readDrain4 =>
    exact ⟨fun h => absurd h Bool.false_ne_true, fun h => absurd h Bool.false_ne_true⟩
  all_goals
    simp only [wires]
    split_ifs <;> exact ⟨fun h => absurd h Bool.false_ne_true, fun h => absurd h Bool.false_ne_true⟩

end Fsm

abbrev Edges (aw : Nat) (α : Type) : Type := Option (IoEdge aw α) × Option (ClkEdge aw α)

namespace Toplevel
variable (s : Toplevel aw α)

def busCycle (i : IoEdge aw α) : BusCycle α where
  rd := (s.wires i.flags).rd
  wr := (s.wires i.flags).wr
  outEmpty := i.flags.outEmpty
  dqIn := i.fx3Dq
  dqOut := s.egress.prefetch.dout
  ready := (s.wires i.flags).intFifoOutReady

def clkEvents (c : ClkEdge aw α) : List (BusEvent α) :=
  (if c.fifoOutValid && !s.egress.full then [.took c.fifoOutData] else []) ++
    if c.fifoInReady && !s.ingress.empty then [.gave s.ingress.prefetch.dout] else []

end Toplevel

def toplevelEdges [OfNat α 0] : Transducer (Toplevel aw α) (Edges aw α) (BusEvent α) where
  next s e := s.next e.1 e.2
  emit s e := e.1.toList.map (fun i => .cycle (s.busCycle i)) ++ e.2.toList.flatMap s.clkEvents

def cyclesIn (bus : List (BusEvent α)) : List (BusCycle α) := bus.filterMap BusEvent.busCycle

namespace Toplevel
variable [OfNat α 0] {s : Toplevel aw α} {e : Edges aw α}

theorem cyclesIn_emit : cyclesIn (toplevelEdges.emit s e) = e.1.toList.map s.busCycle := by
  obtain ⟨io, clk⟩ := e
  have hclk : (clk.toList.flatMap s.clkEvents).filterMap BusEvent.busCycle = [] := by
    cases clk with
    | none => rfl
    | some c =>
      simp only [Option.toList_some, List.flatMap_singleton, clkEvents, List.filterMap_append, filterMap_guarded,
        BusEvent.busCycle, Option.toList_none, ite_self, List.append_nil]
  rw [cyclesIn, toplevelEdges, List.filterMap_append, hclk]
  cases io with
  | none => rfl
  | some i => rfl

omit [OfNat α 0] in
/-- A word that is read finds room in its FIFO, and no other word goes into it. -/
theorem accepts_ingress (h : s.Inv) :
    s.ingress.accepts (e.1.map s.ingressWrite) =
      e.1.toList.filterMap fun i => (s.busCycle i).read s.intFifoInValid := by
  obtain ⟨io, clk⟩ := e
  cases io with
  | none => rfl
  | some i =>
    simp only [Option.map_some, ingressWrite, DualClock.accepts, Option.toList_some, List.filterMap_cons,
      List.filterMap_nil, busCycle, BusCycle.read]
    cases hwr : s.ingressWrEn i.flags with
    | true =>
      have hread : (s.intFifoInValid && !i.flags.outEmpty) = true := hwr
      simp [h.not_full i.flags hwr, hread]
    | false =>
      have hread : (s.intFifoInValid && !i.flags.outEmpty) = false := hwr
      simp [hread]

theorem accepts_egress :
    s.egress.accepts (e.2.map ClkEdge.egressWrite) = (toplevelEdges.emit s e).filterMap BusEvent.tookWord := by
  obtain ⟨io, clk⟩ := e
  have hio : (io.toList.map (fun i => BusEvent.cycle (s.busCycle i))).filterMap BusEvent.tookWord = [] := by
    cases io <;> rfl
  rw [toplevelEdges, List.filterMap_append, hio, List.nil_append]
  cases clk with
  | none => rfl
  | some c =>
    simp only [Option.map_some, Option.toList_some, List.flatMap_singleton, clkEvents, ClkEdge.egressWrite,
      DualClock.accepts, List.filterMap_append, filterMap_guarded, BusEvent.tookWord, Option.toList_none, ite_self,
      List.append_nil]

theorem delivers_ingress :
    s.ingress.delivers (e.2.map ClkEdge.ingressRead) = (toplevelEdges.emit s e).filterMap BusEvent.gaveWord := by
  obtain ⟨io, clk⟩ := e
  have hio : (io.toList.map (fun i => BusEvent.cycle (s.busCycle i))).filterMap BusEvent.gaveWord = [] := by
    cases io <;> rfl
  rw [toplevelEdges, List.filterMap_append, hio, List.nil_append]
  cases clk with
  | none => rfl
  | some c =>
    simp only [Option.map_some, Option.toList_some, List.flatMap_singleton, clkEvents, ClkEdge.ingressRead,
      DualClock.delivers, Prefetch.delivers, List.filterMap_append, filterMap_guarded, BusEvent.gaveWord,
      Option.toList_none, ite_self, List.nil_append]
    rfl

def Loaded (s : Toplevel aw α) : Prop := s.fsm.state.loaded = true → s.egress.empty = false

theorem Loaded.next (h : s.Loaded) (hrst : ∀ i ∈ e.1, i.intRst = false) : (s.next e.1 e.2).Loaded := by
  obtain ⟨io, clk⟩ := e
  cases io with
  | none => exact h
  | some i =>
    intro hloaded
    have hfsm : (s.next (some i) clk).fsm = (s.wires i.flags).registers := by simp [Toplevel.next, hrst i rfl]
    rw [hfsm] at hloaded
    obtain ⟨hword, hready⟩ := s.fsm.loaded_next i.flags s.intFifoInAlmostFull s.egress.empty hloaded
    exact egress_next_empty (hrst i rfl) clk hready (hword.elim h id)

/-- What a cycle writes is the next word, which is gone afterwards if it is marked as taken. -/
theorem presents_next (hloaded : s.Loaded)
    (hqueue : s.egress.delivers (e.1.map s.egressRead) ++ (s.next e.1 e.2).egress.contents =
      s.egress.contents ++ s.egress.accepts (e.2.map ClkEdge.egressWrite)) :
    Presents ((e.1.toList.map s.busCycle).filterMap BusCycle.written)
      (s.egress.contents ++ s.egress.accepts (e.2.map ClkEdge.egressWrite)) (s.next e.1 e.2).egress.contents := by
  obtain ⟨io, clk⟩ := e
  cases io with
  | none =>
    rw [← hqueue]
    exact .nil _
  | some i =>
    obtain ⟨hword, hready⟩ := s.fsm.word_of_loaded i.flags s.intFifoInAlmostFull s.egress.empty hloaded
    change Presents (List.filterMap BusCycle.written [s.busCycle i]) _ _
    have hdelivers : s.egress.delivers (some (s.egressRead i)) =
        if (s.wires i.flags).intFifoOutReady && !s.egress.empty then [s.egress.prefetch.dout] else [] := rfl
    rw [Option.map_some, hdelivers] at hqueue
    cases hwr : (s.wires i.flags).wr with
    | false =>
      have hidle : (s.wires i.flags).intFifoOutReady = false := Bool.eq_false_iff.mpr fun h => by
        cases (hready h).symm.trans hwr
      have hnone : (s.busCycle i).written = none := by simp [BusCycle.written, busCycle, hwr]
      rw [hidle, Bool.false_and, if_neg Bool.false_ne_true, List.nil_append] at hqueue
      rw [List.filterMap_cons_none hnone, hqueue]
      exact .nil _
    | true =>
      obtain ⟨rest, hrest⟩ := s.egress.contents_eq_cons (hword hwr)
      have hsome : (s.busCycle i).written = some (s.egress.prefetch.dout, (s.wires i.flags).intFifoOutReady) := by
        simp [BusCycle.written, busCycle, hwr]
      rw [hword hwr, Bool.not_false, Bool.and_true, hrest, List.cons_append] at hqueue
      rw [List.filterMap_cons_some hsome, hrest, List.cons_append]
      cases htaken : (s.wires i.flags).intFifoOutReady with
      | false =>
        rw [htaken, if_neg Bool.false_ne_true, List.nil_append] at hqueue
        rw [hqueue]
        exact .ignored (.nil _)
      | true =>
        rw [htaken, if_pos rfl, List.singleton_append, List.cons.injEq] at hqueue
        rw [hqueue.2]
        exact .taken (.nil _)

structure Carried (bus : List (BusEvent α)) (s : Toplevel aw α) : Prop where
  reserve : s.Inv
  egress : s.egress.Sound
  loaded : s.Loaded
  strobes : ∃ earlier, strobes (cyclesIn bus) = earlier ++ [s.intFifoInValid, s.rdDelay1, s.rdDelay0]
  read : wordsRead (cyclesIn bus) = bus.filterMap BusEvent.gaveWord ++ s.ingress.contents
  written : Presents ((cyclesIn bus).filterMap BusCycle.written) (bus.filterMap BusEvent.tookWord) s.egress.contents

theorem IsReset.carried (h : s.IsReset) (haw : 3 ≤ aw) : Carried [] s where
  reserve := h.inv haw
  egress := h.egress.sound (by omega)
  loaded := by
    intro hloaded
    rw [h.fsm] at hloaded
    cases hloaded
  strobes := ⟨[], by rw [h.rdDelay0, h.rdDelay1, h.intFifoInValid]; rfl⟩
  read := (h.ingress.contents_eq (by omega)).symm
  written := by
    rw [h.egress.contents_eq (by omega)]
    exact .nil _

/-- The strobes move on with the clock of the FX3, and the third last decides what is read. -/
theorem Carried.next_read {bus : List (BusEvent α)} (h : Carried bus s) (hrst : ∀ i ∈ e.1, i.intRst = false) :
    let cycles := cyclesIn (bus ++ toplevelEdges.emit s e)
    let t := s.next e.1 e.2
    wordsRead cycles = wordsRead (cyclesIn bus) ++ e.1.toList.filterMap (fun i => (s.busCycle i).read s.intFifoInValid) ∧
      ∃ earlier, CypressFx3.strobes cycles = earlier ++ [t.intFifoInValid, t.rdDelay1, t.rdDelay0] := by
  intro cycles t
  obtain ⟨earlier, hearlier⟩ := h.strobes
  have hcycles : cycles = cyclesIn bus ++ e.1.toList.map s.busCycle := by
    rw [← cyclesIn_emit]
    exact List.filterMap_append
  rw [hcycles]
  obtain ⟨io, clk⟩ := e
  cases io with
  | none => exact ⟨by simp, earlier, by simpa [t, Toplevel.next] using hearlier⟩
  | some i =>
    obtain ⟨hread, hstrobes⟩ := wordsRead_concat (s.busCycle i) hearlier
    refine ⟨?_, earlier ++ [s.intFifoInValid], hstrobes.trans ?_⟩
    · rw [Option.toList_some, List.map_singleton, hread]
      rfl
    · simp [t, Toplevel.next, hrst i rfl, busCycle]

theorem Carried.next {bus : List (BusEvent α)} (h : Carried bus s)
    (hin : s.ingress.Sampled PROG_FULL (e.1.map s.ingressWrite) (e.2.map ClkEdge.ingressRead))
    (hout : s.egress.Sampled 0 (e.2.map ClkEdge.egressWrite) (e.1.map s.egressRead))
    (hio : ∀ i ∈ e.1, i.intRst = false) (hclk : ∀ c ∈ e.2, c.intRst = false) :
    Carried (bus ++ toplevelEdges.emit s e) (s.next e.1 e.2) := by
  have hmap {β γ : Type} {w : Option β} {g : β → γ} {p : γ → Prop} (h : ∀ i ∈ w, p (g i)) : ∀ x ∈ w.map g, p x := by
    intro x hx
    obtain ⟨i, hi, rfl⟩ := Option.mem_map.mp hx
    exact h i hi
  obtain ⟨words, wm, rm, room, hat, -⟩ := h.reserve.fifo
  have hsound : s.ingress.Sound := ⟨words, wm, rm, hat⟩
  obtain ⟨-, hread⟩ := hsound.next hin (hmap hio) (hmap hclk)
  obtain ⟨hegress, hwrite⟩ := h.egress.next hout (hmap hclk) (hmap hio)
  rw [delivers_ingress, accepts_ingress h.reserve] at hread
  have hpresents := presents_next h.loaded hwrite
  rw [accepts_egress] at hpresents
  obtain ⟨hwords, hstrobes⟩ := h.next_read hio (e := e)
  refine ⟨h.reserve.next hin hio hclk, hegress, h.loaded.next hio, hstrobes, ?_, ?_⟩
  · rw [hwords, List.filterMap_append, h.read, List.append_assoc, ← hread, List.append_assoc]
    rfl
  · rw [cyclesIn, List.filterMap_append, List.filterMap_append, List.filterMap_append]
    refine (h.written.append _).trans ?_
    rwa [← cyclesIn, cyclesIn_emit]

/-- The edges of a run, one at a time. -/
theorem Run.each {es : List (Edges aw α)} (h : s.Run es) :
    toplevelEdges.Each (fun (s : Toplevel aw α) e =>
      (s.ingress.Sampled PROG_FULL (e.1.map s.ingressWrite) (e.2.map ClkEdge.ingressRead) ∧
        s.egress.Sampled 0 (e.2.map ClkEdge.egressWrite) (e.1.map s.egressRead)) ∧
        (∀ i ∈ e.1, i.intRst = false) ∧ ∀ c ∈ e.2, c.intRst = false) s es := by
  induction es generalizing s with
  | nil => trivial
  | cons e es ih =>
    obtain ⟨hin, hout, hio, hclk, hrun⟩ := h
    exact ⟨⟨⟨hin, hout⟩, hio, hclk⟩, ih hrun⟩

end Toplevel

/-- From reset on, for every order of the edges of the two clocks and whatever the FX3 and the logic do: the words on the
bus three cycles after a read strobe are those that the logic gets and behind them those in the FIFO, and the words that
are written are the next ones that the logic has given, a word that the FX3 ignores being written again. -/
theorem fx3_data_path [OfNat α 0] (haw : 3 ≤ aw) (s₀ : Toplevel aw α) (hreset : s₀.IsReset) (es : List (Edges aw α))
    (hrun : s₀.Run es) :
    let bus := toplevelEdges.emitted s₀ es
    let s := toplevelEdges.after s₀ es
    wordsRead (cyclesIn bus) = bus.filterMap BusEvent.gaveWord ++ s.ingress.contents ∧
      Presents ((cyclesIn bus).filterMap BusCycle.written) (bus.filterMap BusEvent.tookWord) s.egress.contents := by
  have h : Toplevel.Carried _ _ :=
    Transducer.history (fun _ _ _ h he => h.next he.1.1 he.1.2 he.2.1 he.2.2) (hreset.carried haw) hrun.each
  exact ⟨h.read, h.written⟩

/-- Words that are read, and one of the logic that the FX3 has no room for at first. -/
theorem fx3_data_path_ignored :
    let cdc : DualClock 3 Nat := ⟨⟨0, 0, 0, 0, false, []⟩, ⟨0, 0, 0, 0, true, 0⟩, fun _ => 0, .reset 0⟩
    let s₀ : Toplevel 3 Nat := ⟨.reset, false, false, false, cdc, cdc⟩
    let io (inFull inAlmostFull : Bool) : Edges 3 Nat := (some ⟨false, ⟨!inFull, !inAlmostFull, true, true⟩, 5, 0, 1⟩, none)
    let es := (none, some ⟨false, false, true, 7, 0, 0⟩) ::
      (List.replicate 9 (io true false) ++ List.replicate 10 (io false false) ++ io false true :: List.replicate 6 (io false false))
    let bus := toplevelEdges.emitted s₀ es
    let s := toplevelEdges.after s₀ es
    (cyclesIn bus).filterMap BusCycle.written = [(7, false), (7, true)] ∧
      wordsRead (cyclesIn bus) = bus.filterMap BusEvent.gaveWord ++ s.ingress.contents ∧
      Presents ((cyclesIn bus).filterMap BusCycle.written) (bus.filterMap BusEvent.tookWord) s.egress.contents := by
  intro cdc s₀ io es
  have hcdc : cdc.IsReset := by constructor <;> rfl
  have hreset : s₀.IsReset := ⟨rfl, rfl, rfl, rfl, hcdc, hcdc⟩
  exact ⟨by decide +kernel, fx3_data_path (Nat.le_refl 3) s₀ hreset es (by decide +kernel)⟩

end Glip.CypressFx3
