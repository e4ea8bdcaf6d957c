import Glip.Uart.EgressPath

/-! The bytes that the egress path hands on are those of the words that it accepts,
but for the words that come before the write enable of the FIFO. -/
namespace Glip.Uart
open Foundation Fifo Scaler
variable {aw W : Nat} {b : Bool}

namespace EgressPath
variable {s : EgressPath aw} {clkUp ioUp : Bool} {clk : Option (EgressClkEdge aw W)} {io : Option (EgressIoEdge aw)}

structure Inv (s : EgressPath aw) (clkUp ioUp : Bool) : Prop where
  en : s.fifoEnLogic = 0 ∨ s.fifoEnLogic = 4 ∨ s.fifoEnLogic = 6 ∨ s.fifoEnLogic = 7
  rstLogic : s.fifoRstLogic = if clkUp then 0 else 3
  rstIo : s.fifoRstIo = if ioUp then 0 else 3
  down : clkUp = false → s.fifoEnLogic = 0 ∧ s.downscale.scale = false
  reset : s.fifoRst = true → s.cdc.IsReset
  fifo : s.fifoRst = false → ∃ words wm rm, s.cdc.At words wm rm ∧ (s.fifoEn = false → words = [])

theorem InReset.inv (h : s.InReset) : s.Inv false false := by
  have hrst : s.fifoRst = true := by simp [fifoRst, h.fifoRstIo, h.fifoRstLogic]
  exact ⟨.inl h.fifoEnLogic, h.fifoRstLogic, h.fifoRstIo, fun _ => ⟨h.fifoEnLogic, h.scale⟩, fun _ => h.cdc,
    fun hno => absurd hrst (by simp [hno])⟩

section Inv
variable (h : s.Inv clkUp ioUp)
include h

theorem Inv.fifoRst_eq : s.fifoRst = (!clkUp && !ioUp) := by
  rw [fifoRst, h.rstLogic, h.rstIo]
  cases clkUp <;> cases ioUp <;> rfl

/-- The FIFO takes nothing in before its write enable. -/
theorem Inv.not_full (haw : 2 ≤ aw) (hen : s.fifoEn = false) : s.cdc.full = false := by
  cases hr : s.fifoRst with
  | true => exact (h.reset hr).full
  | false =>
    obtain ⟨words, wm, rm, hat, hnone⟩ := h.fifo hr
    have hdepth : 2 ^ 2 ≤ 2 ^ aw := Nat.pow_le_pow_right Nat.two_pos haw
    have hwrote := hat.wrote
    rw [hnone hen, List.length_nil] at hwrote
    have hroom := hat.wr.room
    exact Bool.eq_false_iff.mpr (mt hat.wr.full.mp (by omega))

omit h in
theorem accepts_off (hen : s.fifoEn = false) : s.cdc.accepts (clk.map s.cdcWrite) = [] := by
  cases clk <;> simp [DualClock.accepts, cdcWrite, hen]

theorem Inv.en_off (hclk : clkUp = false) : s.fifoEn = false := by
  rw [fifoEn, (h.down hclk).1]
  rfl

omit h in
private theorem cdcWrite_rst (hr : s.fifoRst = b) : ∀ i ∈ clk.map s.cdcWrite, i.wrRst = b := by
  intro i hi
  obtain ⟨j, -, rfl⟩ := Option.mem_map.mp hi
  exact hr

omit h in
private theorem cdcRead_rst (hr : s.fifoRst = b) : ∀ i ∈ io.map s.cdcRead, i.rdRst = b := by
  intro i hi
  obtain ⟨j, -, rfl⟩ := Option.mem_map.mp hi
  exact hr

/-- The FIFO is a queue in reset and after it. -/
theorem Inv.cdc_next (haw : 2 ≤ aw) (hs : s.cdc.Sampled 0 (clk.map s.cdcWrite) (io.map s.cdcRead)) :
    s.hands io ++ (s.next clk io).cdc.contents = s.cdc.contents ++ s.cdc.accepts (clk.map s.cdcWrite) := by
  cases hr : s.fifoRst with
  | true =>
    have hreset := h.reset hr
    have hup := h.fifoRst_eq
    rw [hr] at hup
    have hoff : s.cdc.accepts (clk.map s.cdcWrite) = [] := accepts_off (h.en_off (by cases clkUp <;> simp at hup ⊢))
    have hnext : (s.next clk io).cdc.IsReset := hreset.next_rst (cdcWrite_rst hr) (cdcRead_rst hr)
    rw [hoff, hreset.contents_eq (by omega), hnext.contents_eq (by omega), hands, hreset.delivers_eq]
  | false =>
    obtain ⟨words, wm, rm, hat, -⟩ := h.fifo hr
    obtain ⟨wm', rm', hat', hread, -⟩ := hat.next hs (cdcWrite_rst hr) (cdcRead_rst hr)
    rw [hat.contents_eq]
    have hnext : (s.next clk io).cdc.contents = (s.next clk io).cdc.inside _ rm'.read := hat'.contents_eq
    rw [hnext, hread]
    exact hat.next_inside (cdcRead_rst hr)

omit h in
theorem next_fifoRst_eq (rst up : Bool) (hup : up = true → rst = false) :
    nextFifoRst rst (if up then 0 else 3) = if up || !rst then 0 else 3 := by
  cases rst <;> cases up <;> simp [nextFifoRst] at hup ⊢

/-- The write enable stays. -/
theorem Inv.en_next (hclk : ∀ i ∈ clk, clkUp = true → i.comRst = false) (hen : (s.next clk io).fifoEn = false) :
    s.fifoEn = false := by
  cases clk with
  | none => exact hen
  | some i =>
    cases hc : i.comRst with
    | true => exact h.en_off (Bool.eq_false_iff.mpr fun hu => by simp [hclk i rfl hu] at hc)
    | false =>
      rw [fifoEn] at hen ⊢
      rcases h.en with he | he | he | he <;> simp [EgressPath.next, nextFifoEn, he, hc] at hen ⊢

theorem Inv.next (haw : 2 ≤ aw) (hs : s.cdc.Sampled 0 (clk.map s.cdcWrite) (io.map s.cdcRead))
    (hclk : ∀ i ∈ clk, clkUp = true → i.comRst = false) (hio : ∀ i ∈ io, ioUp = true → i.comRst = false) :
    (s.next clk io).Inv (clkUp || clk.any fun i => !i.comRst) (ioUp || io.any fun i => !i.comRst) := by
  have hlogic : (s.next clk io).fifoRstLogic = if clkUp || clk.any fun i => !i.comRst then 0 else 3 := by
    cases clk with
    | none => simpa [EgressPath.next] using h.rstLogic
    | some i =>
      rw [Option.any_some, ← next_fifoRst_eq i.comRst clkUp (hclk i rfl), ← h.rstLogic]
      rfl
  have hrstIo : (s.next clk io).fifoRstIo = if ioUp || io.any fun i => !i.comRst then 0 else 3 := by
    cases io with
    | none => simpa [EgressPath.next] using h.rstIo
    | some i =>
      rw [Option.any_some, ← next_fifoRst_eq i.comRst ioUp (hio i rfl), ← h.rstIo]
      rfl
  have hreset (hr : s.fifoRst = true) : (s.next clk io).cdc.IsReset :=
    (h.reset hr).next_rst (cdcWrite_rst hr) (cdcRead_rst hr)
  have hrst := h.fifoRst_eq
  constructor
  case en =>
    cases clk with
    | none => exact h.en
    | some i =>
      rcases h.en with he | he | he | he <;> cases hc : i.comRst <;> simp [EgressPath.next, nextFifoEn, he, hc]
  case rstLogic => exact hlogic
  case rstIo => exact hrstIo
  case down =>
    intro hno
    obtain ⟨hup, hnone⟩ := Bool.or_eq_false_iff.mp hno
    obtain ⟨he, hscale⟩ := h.down hup
    cases clk with
    | none => exact ⟨he, hscale⟩
    | some i =>
      have hc : i.comRst = true := by simpa using hnone
      refine ⟨by simp [EgressPath.next, nextFifoEn, hc], ?_⟩
      simp only [EgressPath.next, Downscale.next, hc]
      split_ifs <;> first | exact hscale | rfl
  case reset =>
    intro hr
    apply hreset
    rw [fifoRst, hlogic, hrstIo] at hr
    rw [hrst]
    cases clkUp <;> cases ioUp <;> simp at hr ⊢
  case fifo =>
    intro _
    cases hr : s.fifoRst with
    | true => exact ⟨[], _, _, (hreset hr).at (by omega), fun _ => rfl⟩
    | false =>
      obtain ⟨words, wm, rm, hat, hnone⟩ := h.fifo hr
      obtain ⟨wm', rm', hat', -⟩ := hat.next hs (cdcWrite_rst hr) (cdcRead_rst hr)
      refine ⟨_, wm', rm', hat', fun hen => ?_⟩
      have hoff := h.en_next hclk hen
      rw [hnone hoff, accepts_off hoff]
      rfl

end Inv

/-- No word is offered before the write enable of the FIFO. -/
def Quiet (s : EgressPath aw) (clk : Option (EgressClkEdge aw W)) : Prop :=
  ∀ i ∈ clk, i.comRst = false → s.fifoEn = false → i.fifoOutValid = false

theorem accepts_cdcWrite (s : EgressPath aw) (i : EgressClkEdge aw W) :
    s.cdc.accepts (some (s.cdcWrite i)) =
      if s.fifoEn then s.downscale.gives i.fifoOutValid s.downscaleOutReady i.fifoOutData else [] := by
  cases he : s.fifoEn <;> simp [DualClock.accepts, cdcWrite, he, Downscale.gives, downscaleOutReady]

/-- The bytes that the downscaler gives to a FIFO that does not take them. -/
def lost (s : EgressPath aw) : Option (EgressClkEdge aw W) → List (BitVec 8)
  | some i =>
    if i.comRst || s.fifoEn then [] else s.downscale.gives i.fifoOutValid s.downscaleOutReady i.fifoOutData
  | none => []

variable (io) in
theorem Inv.kept_next (h : s.Inv clkUp ioUp) (hclk : ∀ i ∈ clk, clkUp = true → i.comRst = false) :
    s.lost clk ++ s.cdc.accepts (clk.map s.cdcWrite) ++ (s.next clk io).downscale.kept W =
      s.downscale.kept W ++ (s.accepts clk).flatMap (parts 8) := by
  cases clk with
  | none => simp [EgressPath.next, EgressPath.accepts, DualClock.accepts, lost]
  | some i =>
    cases hc : i.comRst with
    | true =>
      have hup : clkUp = false := Bool.eq_false_iff.mpr fun hu => by simp [hclk i rfl hu] at hc
      have hscale := (h.down hup).2
      have hnext : (s.next (some i) io).downscale.scale = false := by
        simp only [EgressPath.next, Downscale.next, hc]
        split_ifs <;> first | exact hscale | rfl
      rw [accepts_off (h.en_off hup)]
      simp [EgressPath.accepts, hc, Downscale.kept, hscale, hnext, lost]
    | false =>
      have hkept := s.downscale.kept_next i.fifoOutValid s.downscaleOutReady i.fifoOutData
      have haccepts : s.accepts (some i) =
          s.downscale.takes i.fifoOutValid s.downscaleOutReady i.fifoOutData := by simp [EgressPath.accepts, hc]
      have hnext : (s.next (some i) io).downscale =
          s.downscale.next false i.fifoOutValid s.downscaleOutReady i.fifoOutData := by simp [EgressPath.next, hc]
      rw [haccepts, hnext, ← hkept, Option.map_some, accepts_cdcWrite]
      cases he : s.fifoEn <;> simp [lost, hc, he]

section Step
variable (h : s.Inv clkUp ioUp) (haw : 2 ≤ aw) (hs : s.cdc.Sampled 0 (clk.map s.cdcWrite) (io.map s.cdcRead))
  (hclk : ∀ i ∈ clk, clkUp = true → i.comRst = false)
include h haw hs hclk

/-- A cycle without a lost byte is a cycle of a queue. -/
theorem Inv.contents_next (hlost : s.lost clk = []) :
    s.hands io ++ (s.next clk io).contents W = s.contents W ++ (s.accepts clk).flatMap (parts 8) := by
  have hcdc := h.cdc_next haw hs
  have hkept := h.kept_next io hclk
  rw [hlost, List.nil_append] at hkept
  rw [contents, contents, ← List.append_assoc, hcdc, List.append_assoc, hkept, ← List.append_assoc]

theorem Inv.length_next :
    (s.hands io).length + ((s.next clk io).contents W).length + (s.lost clk).length =
      (s.contents W).length + ((s.accepts clk).flatMap (parts 8)).length := by
  have hcdc := congrArg List.length (h.cdc_next haw hs)
  have hkept := congrArg List.length (h.kept_next io hclk)
  simp only [contents, List.length_append] at hcdc hkept ⊢
  omega

end Step

/-- A word that is offered before the write enable loses a byte. -/
theorem Inv.quiet_of_lost (h : s.Inv clkUp ioUp) (haw : 2 ≤ aw) (hlost : s.lost clk = []) : s.Quiet clk := by
  intro i hi hc he
  obtain rfl := Option.mem_def.mp hi
  by_contra hvalid
  rw [Bool.not_eq_false] at hvalid
  have hready : s.downscaleOutReady = true := by simp [downscaleOutReady, h.not_full haw he]
  have hout : s.downscale.outValid W i.fifoOutValid = true := by
    rw [hvalid, Downscale.outValid]
    split_ifs <;> simp
  simp [lost, hc, he, Downscale.gives, hout, hready] at hlost

/-- Nothing else is lost. -/
theorem lost_of_quiet (hquiet : s.Quiet clk) (hkept : s.fifoEn = false → s.downscale.kept W = []) :
    s.lost clk = [] := by
  cases clk with
  | none => rfl
  | some i =>
    by_cases hon : (i.comRst || s.fifoEn) = true
    · rw [lost, if_pos hon]
    · obtain ⟨hc, he⟩ := Bool.or_eq_false_iff.mp (Bool.eq_false_iff.mpr hon)
      have hvalid := hquiet i rfl hc he
      have hscale := hkept he
      rw [lost, if_neg hon, Downscale.gives, Downscale.outValid, hvalid]
      by_cases hsize : 8 = W
      · simp [hsize]
      · cases hs : s.downscale.scale <;> simp [Downscale.kept, hsize, hs] at hscale ⊢

def untilEn (s : EgressPath aw) : Nat :=
  if s.fifoEnLogic = 0 then 3 else if s.fifoEnLogic = 4 then 2 else if s.fifoEnLogic = 6 then 1 else 0

def releasedEdges (es : List (EgressEdge aw W)) : List (EgressClkEdge aw W) :=
  (es.filterMap Prod.fst).filter fun i => !i.comRst

theorem Inv.offeredLate_cons (h : s.Inv clkUp ioUp) (hclk : ∀ i ∈ clk, clkUp = true → i.comRst = false)
    (es : List (EgressEdge aw W)) :
    (∀ i ∈ (releasedEdges ((clk, io) :: es)).take s.untilEn, i.fifoOutValid = false) ↔
      s.Quiet clk ∧ ∀ i ∈ (releasedEdges es).take (s.next clk io).untilEn, i.fifoOutValid = false := by
  cases clk with
  | none => exact ⟨fun hlate => ⟨nofun, hlate⟩, And.right⟩
  | some i =>
    cases hc : i.comRst with
    | true =>
      have hup : clkUp = false := Bool.eq_false_iff.mpr fun hu => by simp [hclk i rfl hu] at hc
      have hen := (h.down hup).1
      simp [releasedEdges, hc, EgressPath.next, untilEn, Quiet, nextFifoEn, hen]
    | false =>
      have hreleased : releasedEdges ((some i, io) :: es) = i :: releasedEdges es := by simp [releasedEdges, hc]
      rw [hreleased]
      rcases h.en with he | he | he | he <;>
        simp [EgressPath.next, untilEn, Quiet, nextFifoEn, he, hc, fifoEn]

theorem Inv.kept_off (h : s.Inv clkUp ioUp) (hclk : ∀ i ∈ clk, clkUp = true → i.comRst = false)
    (hquiet : s.Quiet clk) (hkept : s.fifoEn = false → s.downscale.kept W = []) (hen : (s.next clk io).fifoEn = false) :
    (s.next clk io).downscale.kept W = [] := by
  have hoff := h.en_next hclk hen
  have haccepts : s.accepts clk = [] := by
    cases clk with
    | none => rfl
    | some i =>
      cases hc : i.comRst with
      | true => simp [EgressPath.accepts, hc]
      | false => simp [EgressPath.accepts, Downscale.takes, hquiet i rfl hc hoff]
  have hstep := h.kept_next io hclk
  rw [hkept hoff, haccepts] at hstep
  exact (List.append_eq_nil_iff.mp hstep).2

section Run
variable {es : List (EgressEdge aw W)}

theorem egressBytes_cons (s : EgressPath aw) (e : EgressEdge aw W) (es : List (EgressEdge aw W)) :
    (egressBytes aw W).emitted s (e :: es) = s.hands e.2 ++ (egressBytes aw W).emitted (s.next e.1 e.2) es := rfl

theorem egressWords_cons (s : EgressPath aw) (e : EgressEdge aw W) (es : List (EgressEdge aw W)) :
    (egressWords aw W).emitted s (e :: es) = s.accepts e.1 ++ (egressWords aw W).emitted (s.next e.1 e.2) es := rfl

theorem egressBytes_after_cons (s : EgressPath aw) (e : EgressEdge aw W) (es : List (EgressEdge aw W)) :
    (egressBytes aw W).after s (e :: es) = (egressBytes aw W).after (s.next e.1 e.2) es := rfl

/-- The bytes of the words that a run without a lost byte accepts. -/
theorem Inv.run_quiet (h : s.Inv clkUp ioUp) (haw : 2 ≤ aw) (hrun : s.Run clkUp ioUp es)
    (hkept : s.fifoEn = false → s.downscale.kept W = [])
    (hlate : ∀ i ∈ (releasedEdges es).take s.untilEn, i.fifoOutValid = false) :
    (egressBytes aw W).emitted s es ++ ((egressBytes aw W).after s es).contents W =
      s.contents W ++ ((egressWords aw W).emitted s es).flatMap (parts 8) := by
  induction es generalizing s clkUp ioUp with
  | nil => simp
  | cons e es ih =>
    obtain ⟨hs, hclk, hio, hrun⟩ := hrun
    obtain ⟨hquiet, hlate⟩ := (h.offeredLate_cons hclk es).mp hlate
    have hstep := h.contents_next haw hs hclk (lost_of_quiet hquiet hkept)
    have hrest := ih (h.next haw hs hclk hio) hrun (h.kept_off hclk hquiet hkept) hlate
    rw [egressBytes_cons, egressWords_cons, egressBytes_after_cons, List.append_assoc, hrest, ← List.append_assoc, hstep, List.flatMap_append,
      List.append_assoc]

/-- The bytes that a run hands on and keeps are not more than those that it accepts, and
they are fewer if a byte is lost. -/
theorem Inv.run_length (h : s.Inv clkUp ioUp) (haw : 2 ≤ aw) (hrun : s.Run clkUp ioUp es) :
    ((egressBytes aw W).emitted s es).length + (((egressBytes aw W).after s es).contents W).length ≤
        (s.contents W).length + (((egressWords aw W).emitted s es).flatMap (parts 8)).length ∧
      (((egressBytes aw W).emitted s es).length + (((egressBytes aw W).after s es).contents W).length =
        (s.contents W).length + (((egressWords aw W).emitted s es).flatMap (parts 8)).length →
      ∀ i ∈ (releasedEdges es).take s.untilEn, i.fifoOutValid = false) := by
  induction es generalizing s clkUp ioUp with
  | nil => simp [releasedEdges]
  | cons e es ih =>
    obtain ⟨hs, hclk, hio, hrun⟩ := hrun
    have hstep := h.length_next haw hs hclk
    obtain ⟨hle, heq⟩ := ih (h.next haw hs hclk hio) hrun
    rw [egressBytes_cons, egressWords_cons, egressBytes_after_cons, List.flatMap_append, List.length_append, List.length_append]
    refine ⟨by omega, fun hall => ?_⟩
    have hlost : s.lost e.1 = [] := List.eq_nil_of_length_eq_zero (by omega)
    exact (h.offeredLate_cons hclk es).mpr ⟨h.quiet_of_lost haw hlost, heq (by omega)⟩

end Run
end EgressPath

/-- The bytes handed to the control module, with those that are still inside, are the
big-endian bytes of the accepted words, in their order, if and only if no word was
offered in the three cycles after the release of `com_rst`. -/
theorem egress_path_in_order_iff (hW : W = 8 ∨ W = 16) (haw : 2 ≤ aw) {s₀ : EgressPath aw} (h : s₀.InReset)
    (es : List (EgressEdge aw W)) (hrun : s₀.Run false false es) :
    (egressBytes aw W).emitted s₀ es ++ ((egressBytes aw W).after s₀ es).contents W =
        ((egressWords aw W).emitted s₀ es).flatMap bigEndianBytes ↔
      OfferedLate es := by
  have hinv := h.inv
  have hempty : s₀.contents W = [] := by
    rw [EgressPath.contents, h.cdc.contents_eq (by omega), Downscale.kept, h.scale]
    simp
  have huntil : s₀.untilEn = 3 := by simp [EgressPath.untilEn, h.fifoEnLogic]
  have hparts : (bigEndianBytes : BitVec W → List (BitVec 8)) = parts 8 := funext (bigEndianBytes_eq hW)
  rw [hparts]
  constructor
  · intro hall
    have hlength := congrArg List.length hall
    rw [List.length_append] at hlength
    have := (hinv.run_length haw hrun).2 (by rw [hempty]; simpa using hlength)
    rwa [huntil] at this
  · intro hlate
    have := hinv.run_quiet haw hrun (fun _ => by simp [Downscale.kept, h.scale]) (huntil.symm ▸ hlate)
    rwa [hempty] at this

section Runs

def egressInReset : EgressPath 2 :=
  ⟨0, 3, 3, ⟨false, 0⟩, ⟨⟨0, 0, 0, 0, false, []⟩, ⟨0, 0, 0, 0, true, 0⟩, fun _ => 0, .reset 0⟩⟩

private theorem egressInReset_inReset : egressInReset.InReset := ⟨rfl, rfl, rfl, rfl, by constructor <;> rfl⟩

/-- A word that is offered in the first cycle after the release is accepted and lost. -/
theorem egress_path_loses_first_word :
    let s₀ := egressInReset
    let es : List (EgressEdge 2 8) :=
      [(some ⟨true, false, 0, 0⟩, some ⟨true, false, 0⟩), (some ⟨false, true, 0x41, 0⟩, none)]
    s₀.InReset ∧ s₀.Run false false es ∧ (egressWords 2 8).emitted s₀ es = [0x41] ∧
      (egressBytes 2 8).emitted s₀ es ++ ((egressBytes 2 8).after s₀ es).contents 8 ≠
        ((egressWords 2 8).emitted s₀ es).flatMap bigEndianBytes := by
  intro s₀ es
  exact ⟨egressInReset_inReset, by decide, by decide, by decide⟩

/-- A word of two bytes that is offered in the fourth cycle arrives. -/
theorem egress_path_in_order_iff_late :
    let s₀ := egressInReset
    let clk (valid : Bool) : EgressEdge 2 16 := (some ⟨false, valid, 0x4142, 0⟩, none)
    let es := List.replicate 3 (clk false) ++ [clk true, clk false] ++
      List.replicate 8 (none, some ⟨false, true, 3⟩)
    (egressBytes 2 16).emitted s₀ es = [0x41, 0x42] ∧
      (egressBytes 2 16).emitted s₀ es ++ ((egressBytes 2 16).after s₀ es).contents 16 =
        ((egressWords 2 16).emitted s₀ es).flatMap bigEndianBytes := by
  intro s₀ clk es
  have hlate : OfferedLate es := by decide
  have hrun : s₀.Run false false es := by decide
  exact ⟨by decide, (egress_path_in_order_iff (.inr rfl) (Nat.le_refl 2) egressInReset_inReset es hrun).mpr hlate⟩

end Runs
end Glip.Uart
