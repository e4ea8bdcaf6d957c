import Glip.Jtag.Discovery
import Glip.Jtag.TapScans

/-! The target at its pins: glip_jtag_toplevel.v with the test access port and the three state machines. -/
namespace Glip.Jtag
open Foundation
variable {W N : Nat}

/-- The registers that `tck` drives, with `rst` low. -/
structure JtagToplevel (W : Nat) where
  tap : Tap
  config : ConfigFsm W
  target : Target W

namespace JtagToplevel

def dataIn (s : JtagToplevel W) (p : TapPins) : TapIn where
  tdi := p.tdi
  shift := s.tap.states.shiftDr && s.tap.debugSelect
  update := s.tap.states.updateDr && s.tap.debugSelect
  capture := s.tap.states.captureDr && s.tap.debugSelect

/-- The signals of the port for the discovery, whose update is that of every instruction. -/
def configIn (s : JtagToplevel W) (p : TapPins) : TapIn :=
  { s.dataIn p with update := s.tap.states.updateDr }

def tdo (s : JtagToplevel W) (N : Nat) (f : FifoSide W) (i : TapPins × Nat) : Bool :=
  if s.config.configDiscovery then (s.config.wires N (s.configIn i.1)).tdo
  else if (s.dataIn i.1).shift then (s.target.output.wires (s.target.outputIn f (s.dataIn i.1, i.2))).tdo
  else s.tap.tdo i.1

end JtagToplevel

/-- The target over the edges of `tck`, which are numbered, with the bits that a scan of data captures. -/
def jtagToplevel (N : Nat) (f : FifoSide W) : Transducer (JtagToplevel W) (TapPins × Nat) Bool where
  next s i :=
    ⟨s.tap.next i.1, s.config.next N (s.configIn i.1), (target f).next s.target (s.dataIn i.1, i.2)⟩
  emit s i := if s.tap.states.shiftDr then [s.tdo N f i] else []

def TapState.signals (st : TapState) (p : TapPins) : TapIn where
  tdi := p.tdi
  shift := st = .shiftDr
  update := st = .updateDr
  capture := st = .captureDr

def tapSignals : Transducer TapState TapPins TapIn where
  next := tapWalk.next
  emit st p := [st.signals p]

def shiftPins : List Bool → List TapPins
  | [] => []
  | [b] => [⟨true, b⟩]
  | b :: bs => ⟨false, b⟩ :: shiftPins bs

/-- A scan of data from Run-Test/Idle and back, with `tdi` at a level outside of the shift. -/
def drscanPins (level : Bool) (bits : List Bool) : List TapPins :=
  [⟨true, level⟩, ⟨false, level⟩, ⟨false, level⟩] ++ shiftPins bits ++ [⟨true, level⟩, ⟨false, level⟩]

def irscanPins (level : Bool) (bits : List Bool) : List TapPins :=
  [⟨true, level⟩, ⟨true, level⟩, ⟨false, level⟩] ++ (⟨false, level⟩ :: (shiftPins bits ++ [⟨true, level⟩])) ++ [⟨false, level⟩]

namespace JtagToplevel
variable {f : FifoSide W} {s : JtagToplevel W} {st : TapState}

theorem after_tap (s : JtagToplevel W) (is : List (TapPins × Nat)) :
    ((jtagToplevel N f).after s is).tap = (is.map Prod.fst).foldl Tap.next s.tap := by
  induction is generalizing s with
  | nil => rfl
  | cons i is ih => exact ih _

theorem dataIn_eq (h : s.tap.Synced st) (hdebug : s.tap.latchedJtagIr = debugIr) (p : TapPins) :
    s.dataIn p = st.signals p := by
  have hselect : s.tap.debugSelect = true := by
    rw [Tap.debugSelect, hdebug]
    rfl
  rw [dataIn, h.states, hselect]
  simp [TapState.signals, TapState.oneHot]

theorem configIn_eq (h : s.tap.Synced st) (hdebug : s.tap.latchedJtagIr = debugIr) (p : TapPins) :
    s.configIn p = st.signals p := by
  rw [configIn, dataIn_eq h hdebug, h.states]
  rfl

end JtagToplevel

/-- While the instruction DEBUG stays, the target does at its pins what its state machines do in the cycles of the
walk through the diagram, and a scan captures the bits that they send. -/
theorem pins_drive_target {f : FifoSide W} {s : JtagToplevel W} {st : TapState} (hsync : s.tap.Synced st)
    (hdebug : s.tap.latchedJtagIr = debugIr) (ps : List TapPins) (hwalk : tapWalk.Each (fun st _ => st.Keeps) st ps)
    (k : Nat) :
    let t := (jtagToplevel N f).after s (ps.zipIdx k)
    let cycles := (tapSignals.emitted st ps).zipIdx k
    (jtagToplevel N f).emitted s (ps.zipIdx k) = (toplevel N f).emitted (s.config, s.target) cycles ∧
      (t.config, t.target) = (toplevel N f).after (s.config, s.target) cycles := by
  induction ps generalizing s st k with
  | nil => exact ⟨rfl, rfl⟩
  | cons p ps ih =>
    obtain ⟨hkeeps, hwalk⟩ := hwalk
    have hdata := s.dataIn_eq hsync hdebug p
    have hconfig := s.configIn_eq hsync hdebug p
    have hemit : (jtagToplevel N f).emit s (p, k) = (toplevel N f).emit (s.config, s.target) (st.signals p, k) := by
      simp only [jtagToplevel, toplevel, JtagToplevel.tdo, hdata, hconfig]
      by_cases hst : st = .shiftDr
      · simp [TapState.signals, hst, hsync.shiftDr_iff.mpr hst]
      · simp [TapState.signals, hst, mt hsync.shiftDr_iff.mp hst]
    have hnext : (((jtagToplevel N f).next s (p, k)).config, ((jtagToplevel N f).next s (p, k)).target) =
        (toplevel N f).next (s.config, s.target) (st.signals p, k) := by
      simp only [jtagToplevel, toplevel, hdata, hconfig]
    have hcycles : (tapSignals.emitted st (p :: ps)).zipIdx k =
        (st.signals p, k) :: (tapSignals.emitted (st.next p.tms) ps).zipIdx (k + 1) := rfl
    dsimp only
    rw [hcycles, List.zipIdx_cons, Transducer.emitted_cons, Transducer.emitted_cons, Transducer.after_cons,
      Transducer.after_cons, hemit, ← hnext]
    rcases ps with _ | ⟨q, ps⟩
    · exact ⟨rfl, rfl⟩
    · have hlatched := hsync.latched_next hkeeps.1 hwalk.1.2
      obtain ⟨hemitted, hafter⟩ :=
        ih (s := (jtagToplevel N f).next s (p, k)) (hsync.next p) (hlatched.trans hdebug) hwalk (k + 1)
      exact ⟨congrArg _ hemitted, hafter⟩

/-- A scan of three bits with a pause, after low registers and a scan of the instruction. -/
theorem pins_drive_target_scan :
    let f : FifoSide 8 := ⟨fun _ => true, fun _ => true, fun k => BitVec.ofNat 8 k, fun _ => 0⟩
    let s : JtagToplevel 8 := ⟨resetTap (⟨false, false⟩ :: irscanPins false (bitsOf debugIr)), .cleared 8,
      ⟨⟨.dropPacket, 0, 0, 0, 0, false, false⟩, ⟨.idle, 0, 0, 0, 0, 0, 0, 0, 0⟩, 0⟩⟩
    let ps : List TapPins := [⟨true, false⟩, ⟨false, false⟩, ⟨false, false⟩, ⟨false, true⟩, ⟨true, true⟩, ⟨false, false⟩,
      ⟨true, false⟩, ⟨false, false⟩, ⟨true, false⟩, ⟨true, false⟩, ⟨false, false⟩]
    let t := (jtagToplevel 3 f).after s (ps.zipIdx 0)
    let cycles := (tapSignals.emitted .runTestIdle ps).zipIdx 0
    (jtagToplevel 3 f).emitted s (ps.zipIdx 0) = (toplevel 3 f).emitted (s.config, s.target) cycles ∧
      (t.config, t.target) = (toplevel 3 f).after (s.config, s.target) cycles := by
  intro f s ps
  have hsync : s.tap.Synced .runTestIdle := resetTap_synced (⟨false, false⟩ :: irscanPins false (bitsOf debugIr))
  exact pins_drive_target hsync (by decide) ps (by simp [ps, tapWalk, Transducer.Each, TapState.next, TapState.Keeps]) 0

def TapState.InScan (st : TapState) : Prop :=
  st = .shiftDr ∨ st = .exit1Dr ∨ st = .pauseDr ∨ st = .exit2Dr ∨ st = .updateDr

namespace ConfigFsm

theorem cleared_next {i : TapIn} (hshift : i.shift = false) : (cleared W).next N i = cleared W := by
  cases hupdate : i.update <;> simp [ConfigFsm.next, wires, cleared, hshift, hupdate]

end ConfigFsm

namespace JtagToplevel
variable {f : FifoSide W} {s : JtagToplevel W} {st : TapState}

/-- An update of any instruction clears the registers of the discovery, and they stay so until a scan shifts. -/
theorem config_next (h : s.tap.Synced st) (hrest : st.InScan ∨ s.config = .cleared W) (i : TapPins × Nat) :
    (st.next i.1.tms).InScan ∨ ((jtagToplevel N f).next s i).config = .cleared W := by
  have hnext : ((jtagToplevel N f).next s i).config = s.config.next N (s.configIn i.1) := rfl
  by_cases hupdate : st = .updateDr
  · have hclears : (s.configIn i.1).update = true := by
      rw [configIn, h.states, hupdate]
      rfl
    right
    rw [hnext, ConfigFsm.next, if_pos hclears]
  by_cases hscan : st.InScan
  · left
    cases htms : i.1.tms <;> rcases hscan with rfl | rfl | rfl | rfl | rfl <;> simp_all [TapState.next, TapState.InScan]
  · have hconfig := hrest.resolve_left hscan
    have hshift : (s.configIn i.1).shift = false := by
      have hst : st ≠ .shiftDr := fun hst => hscan (.inl hst)
      simp [configIn, dataIn, h.states, TapState.oneHot, hst]
    right
    rw [hnext, hconfig, ConfigFsm.cleared_next hshift]

/-- After an update the registers of the discovery are clear outside of the scans of data. -/
theorem config_rests (h : s.tap.Synced st) (is : List (TapPins × Nat))
    (hupdate : (st.InScan ∨ s.config = .cleared W) ∨ .updateDr ∈ tapWalk.emitted st (is.map Prod.fst)) :
    (tapWalk.after st (is.map Prod.fst)).InScan ∨ ((jtagToplevel N f).after s is).config = .cleared W := by
  induction is generalizing s st with
  | nil =>
    rcases hupdate with hrest | hvisit
    · exact hrest
    · cases hvisit
  | cons i is ih =>
    refine ih (s := (jtagToplevel N f).next s i) (h.next i.1) ?_
    rcases hupdate with hrest | hvisit
    · exact .inl (config_next h hrest i)
    · rcases List.mem_cons.mp hvisit with hst | hvisit
      · exact .inl (config_next h (.inl (.inr (.inr (.inr (.inr hst.symm))))) i)
      · exact .inr hvisit

end JtagToplevel

section Pins
variable {bits : List Bool} {level : Bool}

theorem length_shiftPins (bits : List Bool) : (shiftPins bits).length = bits.length := by
  induction bits using shiftPins.induct with
  | case1 => rfl
  | case2 b => rfl
  | case3 b bs hbs ih =>
    rw [shiftPins, List.length_cons, List.length_cons, ih]
    exact hbs

/-- The bits are shifted in one state, and the last one leaves it. -/
theorem shiftPins_walk {t : TapState} (ht : t = .shiftDr ∨ t = .shiftIr) (hbits : bits ≠ []) :
    tapWalk.after t (shiftPins bits) = (if t = .shiftDr then .exit1Dr else .exit1Ir) ∧
      tapWalk.Each (fun st _ => st = t) t (shiftPins bits) := by
  induction bits using shiftPins.induct with
  | case1 => exact absurd rfl hbits
  | case2 b => rcases ht with rfl | rfl <;> exact ⟨rfl, rfl, trivial⟩
  | case3 b bs hbs ih =>
    obtain ⟨hafter, heach⟩ := ih hbs
    have hstay : tapWalk.next t ⟨false, b⟩ = t := by rcases ht with rfl | rfl <;> rfl
    rw [shiftPins]
    · refine ⟨?_, rfl, ?_⟩
      · rw [Transducer.after_cons, hstay, hafter]
      · rw [hstay]
        exact heach
    · exact hbs

/-- In the states in which the port shifts what goes in are the bits. -/
theorem shiftPins_takes {shifting : TapStates → Bool} {t : Tap} (hP : (tapTakes shifting).Each (fun t _ => shifting t.states) t (shiftPins bits)) :
    (tapTakes shifting).emitted t (shiftPins bits) = bits := by
  induction bits using shiftPins.induct generalizing t with
  | case1 => rfl
  | case2 b =>
    have hfirst : (tapTakes shifting).emit t ⟨true, b⟩ = [b] := if_pos hP.1
    rw [shiftPins, Transducer.emitted_cons, hfirst]
    rfl
  | case3 b bs hbs ih =>
    have hpins : shiftPins (b :: bs) = ⟨false, b⟩ :: shiftPins bs := by
      rw [shiftPins]
      exact hbs
    rw [hpins] at hP ⊢
    have hfirst : (tapTakes shifting).emit t ⟨false, b⟩ = [b] := if_pos hP.1
    rw [Transducer.emitted_cons, hfirst, ih hP.2]
    rfl

/-- As many bits come out as go in. -/
theorem tapGives_length (shifting : TapStates → Bool) (t : Tap) (ps : List TapPins) :
    ((tapGives shifting).emitted t ps).length = ((tapTakes shifting).emitted t ps).length := by
  induction ps generalizing t with
  | nil => rfl
  | cons p ps ih =>
    have hfirst : ((tapGives shifting).emit t p).length = ((tapTakes shifting).emit t p).length := by
      simp only [tapGives, tapTakes]
      split <;> rfl
    rw [Transducer.emitted_cons, Transducer.emitted_cons, List.length_append, List.length_append, hfirst]
    exact congrArg _ (ih _)

/-- What goes into the instruction register in the shift of a scan. -/
theorem irscan_takes {t : Tap} (h : t.Synced .captureIr) (hbits : bits ≠ []) (level : Bool) :
    (tapTakes TapStates.shiftIr).emitted t (⟨false, level⟩ :: (shiftPins bits ++ [⟨true, level⟩])) = bits := by
  obtain ⟨hafter, heach⟩ := shiftPins_walk (t := .shiftIr) (.inr rfl) hbits
  have hshift : (t.next ⟨false, level⟩).Synced .shiftIr := h.next ⟨false, level⟩
  have hexit := hshift.run (shiftPins bits)
  rw [hafter] at hexit
  have hfirst : (tapTakes TapStates.shiftIr).emit t ⟨false, level⟩ = [] :=
    if_neg fun hs => TapState.noConfusion (h.shiftIr_iff.mp hs)
  have hlast : (tapTakes TapStates.shiftIr).emit ((tapTakes TapStates.shiftIr).after (t.next ⟨false, level⟩) (shiftPins bits))
      ⟨true, level⟩ = [] := if_neg fun hs => TapState.noConfusion (hexit.shiftIr_iff.mp hs)
  have htakes := shiftPins_takes ((hshift.each_states (tapTakes TapStates.shiftIr).emit heach).imp
    fun t _ ⟨st, hsync, hst⟩ => (hst ▸ hsync).shiftIr_iff.mpr rfl)
  rw [Transducer.emitted_cons, hfirst, List.nil_append, Transducer.emitted_append, Transducer.emitted_cons]
  rw [show (tapTakes TapStates.shiftIr).next t ⟨false, level⟩ = t.next ⟨false, level⟩ from rfl, hlast, List.nil_append,
    Transducer.emitted_nil, List.append_nil]
  exact htakes

/-- A scan of four bits from Run-Test/Idle latches them. -/
theorem irscan_latches {t : Tap} (h : t.Synced .runTestIdle) (level : Bool) (L : BitVec 4) :
    ((irscanPins level (bitsOf L)).foldl Tap.next t).latchedJtagIr = L := by
  have hbits : bitsOf L ≠ [] := List.ne_nil_of_length_pos (by rw [length_bitsOf]; decide)
  obtain ⟨hafter, heach⟩ := shiftPins_walk (t := .shiftIr) (.inr rfl) hbits
  have hlead : ([⟨true, level⟩, ⟨true, level⟩, ⟨false, level⟩].foldl Tap.next t).Synced .captureIr :=
    h.run [⟨true, level⟩, ⟨true, level⟩, ⟨false, level⟩]
  rw [irscanPins, List.append_assoc, List.foldl_append]
  generalize [(⟨true, level⟩ : TapPins), ⟨true, level⟩, ⟨false, level⟩].foldl Tap.next t = t' at hlead ⊢
  have hwalk : tapWalk.Each (fun st _ => st ≠ .captureIr) .shiftIr (shiftPins (bitsOf L) ++ [⟨true, level⟩]) := by
    rw [Transducer.each_append, hafter]
    exact ⟨heach.imp fun st _ hst => by rw [hst]; decide, TapState.noConfusion, trivial⟩
  have hend : tapWalk.after .shiftIr (shiftPins (bitsOf L) ++ [⟨true, level⟩]) = .updateIr := by
    rw [Transducer.after_append, hafter]
    rfl
  have hscan := ir_scan hlead ⟨false, level⟩ ⟨false, level⟩ _ hwalk hend
  have hlen := tapGives_length TapStates.shiftIr t' (⟨false, level⟩ :: (shiftPins (bitsOf L) ++ [⟨true, level⟩]))
  rw [irscan_takes hlead hbits] at hscan hlen
  exact bitsOf_injective (List.append_inj hscan (by rw [hlen, length_bitsOf, length_bitsOf])).2

end Pins

def FifoSide.renumber (f : FifoSide W) (r : Nat → Nat) : FifoSide W :=
  ⟨fun k => f.inReady (r k), fun k => f.fifoValid (r k), f.fifo, fun k => f.stale (r k)⟩

theorem toplevel_renumber (f : FifoSide W) (r : Nat → Nat) (s : ConfigFsm W × Target W) (cs : List (TapIn × Nat)) :
    (toplevel N f).emitted s (cs.map (Prod.map id r)) = (toplevel N (f.renumber r)).emitted s cs := by
  induction cs generalizing s with
  | nil => rfl
  | cons c cs ih => exact congrArg₂ _ rfl (ih _)

/-- The cycles of a scan of data are those that the state machines know. -/
theorem tapSignals_drscan {bits : List Bool} (hbits : bits ≠ []) (level : Bool) :
    tapSignals.emitted .runTestIdle (drscanPins level bits) = ScanGaps.scan ⟨[level, level], level, [level], level⟩ bits := by
  obtain ⟨hafter, -⟩ := shiftPins_walk (t := .shiftDr) (.inl rfl) hbits
  have hshift : tapSignals.emitted .shiftDr (shiftPins bits) = bits.map .bit := by
    clear hafter
    induction bits using shiftPins.induct with
    | case1 => rfl
    | case2 b => rfl
    | case3 b bs hbs ih =>
      rw [shiftPins, List.map_cons, ← ih hbs]
      · rfl
      · exact hbs
  have hexit : tapSignals.after .shiftDr (shiftPins bits) = .exit1Dr := hafter
  rw [drscanPins, List.append_assoc, Transducer.emitted_append, Transducer.emitted_append]
  have hlead : tapSignals.after .runTestIdle [⟨true, level⟩, ⟨false, level⟩, ⟨false, level⟩] = .shiftDr := rfl
  rw [hlead, hshift, hexit, ScanGaps.scan]
  simp [tapSignals, tapWalk, TapState.signals, TapState.next, TapIn.quiet, TapIn.captureDr, TapIn.updateDr]

theorem drscan_keeps {bits : List Bool} (hbits : bits ≠ []) (level : Bool) :
    tapWalk.Each (fun st _ => st.Keeps) .runTestIdle (drscanPins level bits) := by
  obtain ⟨hafter, heach⟩ := shiftPins_walk (t := .shiftDr) (.inl rfl) hbits
  have hkeeps : ∀ {st : TapState}, st ≠ .updateIr → st ≠ .testLogicReset → st.Keeps := fun h h' => ⟨h, h'⟩
  rw [drscanPins, List.append_assoc, Transducer.each_append, Transducer.each_append]
  refine ⟨⟨hkeeps nofun nofun, hkeeps nofun nofun, hkeeps nofun nofun, trivial⟩, ?_, ?_⟩
  · exact heach.imp fun st _ hst => by rw [hst]; exact hkeeps nofun nofun
  · have hexit : tapWalk.after (tapWalk.after .runTestIdle [⟨true, level⟩, ⟨false, level⟩, ⟨false, level⟩]) (shiftPins bits) = .exit1Dr := hafter
    rw [hexit]
    exact ⟨hkeeps nofun nofun, hkeeps nofun nofun, trivial⟩

/-- Whatever the registers of the target hold: after five edges with `tms` high, a walk through an update of any
data register that comes to Run-Test/Idle, and a scan of the instruction DEBUG, a discovery finds the configuration. -/
theorem discovery_at_pins (hN : N ≤ 30) (f : FifoSide 16) (s : JtagToplevel 16) (level : Bool) (lead walk : List TapPins)
    (hlen : lead.length = 5) (hones : ∀ p ∈ lead, p.tms = true)
    (hupdate : .updateDr ∈ tapWalk.emitted .testLogicReset walk) (hidle : tapWalk.after .testLogicReset walk = .runTestIdle) :
    let pins := lead ++ walk ++ irscanPins level (bitsOf debugIr)
    let discovery := (drscanPins level (drscanBits discoverReq)).zipIdx pins.length
    let captured := (jtagToplevel N f).emitted ((jtagToplevel N f).after s pins.zipIdx) discovery
    discoverTargetconf (jtagDrscanRead (openocdAnswer (bytesOf discoverReq.length captured))) = some (2, 2 ^ N) := by
  intro pins discovery captured
  obtain ⟨hreset, -⟩ := s.tap.five_ones hlen hones
  have hwalk := hreset.run walk
  rw [hidle] at hwalk
  have hdebug := irscan_latches hwalk level debugIr
  have hback := hwalk.run (irscanPins level (bitsOf debugIr))
  have htap (s : JtagToplevel 16) (ps : List TapPins) (k : Nat) :
      ((jtagToplevel N f).after s (ps.zipIdx k)).tap = ps.foldl Tap.next s.tap := by
    rw [JtagToplevel.after_tap, List.zipIdx_map_fst]
  let s₁ := (jtagToplevel N f).after s lead.zipIdx
  let s₂ := (jtagToplevel N f).after s₁ ((walk ++ irscanPins level (bitsOf debugIr)).zipIdx lead.length)
  have hs₂ : (jtagToplevel N f).after s pins.zipIdx = s₂ := by
    rw [show pins = lead ++ (walk ++ irscanPins level (bitsOf debugIr)) from List.append_assoc _ _ _, List.zipIdx_append,
      Transducer.after_append, Nat.zero_add]
  have hs₁ : s₁.tap = lead.foldl Tap.next s.tap := htap s lead 0
  have htap₂ : s₂.tap = (irscanPins level (bitsOf debugIr)).foldl Tap.next (walk.foldl Tap.next (lead.foldl Tap.next s.tap)) := by
    rw [← List.foldl_append, ← hs₁]
    exact htap s₁ _ _
  -- the registers of the discovery are clear where the scan begins
  have hconfig : s₂.config = .cleared 16 := by
    have hrests := JtagToplevel.config_rests (N := N) (f := f) (hs₁ ▸ hreset)
      ((walk ++ irscanPins level (bitsOf debugIr)).zipIdx lead.length) (.inr (by
        rw [List.zipIdx_map_fst, Transducer.emitted_append]
        exact List.mem_append_left _ hupdate))
    rw [List.zipIdx_map_fst, Transducer.after_append, hidle] at hrests
    exact hrests.resolve_left (by rintro (h | h | h | h | h) <;> cases h)
  obtain ⟨hemitted, -⟩ := pins_drive_target (N := N) (f := f) (htap₂ ▸ hback) (htap₂ ▸ hdebug)
    (drscanPins level (drscanBits discoverReq)) (drscan_keeps (by decide) level) pins.length
  have hne : drscanBits discoverReq ≠ [] := by decide
  have hscan := tapSignals_drscan hne level
  have hcaptured : captured = (toplevel N (f.renumber (pins.length + ·))).emitted (.cleared 16, s₂.target)
      (ScanGaps.scan ⟨[level, level], level, [level], level⟩ (drscanBits discoverReq)).zipIdx := by
    rw [← toplevel_renumber, ← hconfig, ← hscan]
    change (jtagToplevel N f).emitted ((jtagToplevel N f).after s pins.zipIdx) _ = _
    rw [hs₂, hemitted, List.zipIdx_eq_map_add]
    rfl
  rw [hcaptured, ← jtagDrscan, discover_sixteen, Nat.mod_eq_of_lt (by omega), shiftOne, if_pos (by omega)]
  rfl

theorem discovery_at_pins_clear :
    let f : FifoSide 16 := ⟨fun _ => true, fun _ => true, fun k => BitVec.ofNat 16 k, fun _ => 0⟩
    let s : JtagToplevel 16 := ⟨clearTap, ⟨.sendWordWidth, 3, 0, false, true, true⟩,
      ⟨⟨.readPacket, 5, 0, 0, 0, true, false⟩, ⟨.noData, 9, 0, 0, 0, 0, 0, 0, 0⟩, 0⟩⟩
    let walk : List TapPins := ⟨false, true⟩ :: drscanPins true (List.replicate 40 true)
    let pins := fiveOnes ++ walk ++ irscanPins true (bitsOf debugIr)
    let discovery := (drscanPins true (drscanBits discoverReq)).zipIdx pins.length
    let captured := (jtagToplevel 3 f).emitted ((jtagToplevel 3 f).after s pins.zipIdx) discovery
    discoverTargetconf (jtagDrscanRead (openocdAnswer (bytesOf discoverReq.length captured))) = some (2, 2 ^ 3) :=
  discovery_at_pins (by decide) _ _ true fiveOnes _ rfl fiveOnes_tms (by decide) rfl

end Glip.Jtag
