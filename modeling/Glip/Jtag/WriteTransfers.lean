import Glip.Jtag.InputTransfer

/-! The words of the host reach the in FIFO exactly once, whatever the target accepts of a
transfer: the host sends again what was not acknowledged. -/
namespace Glip.Jtag
open Foundation
variable {W length : Nat}

/-- The input path over cycles in which the in FIFO is ready or not, with the words that it
passes on. Without an external reset `int_rst` is `jtag_reset`. -/
def inputPath (W length : Nat) : Transducer (InputPath W length) (TapIn × Bool) (BitVec W) where
  next s i := s.next s.fsm.jtagReset i.1 i.2
  emit s i := s.passes i.2

def inputAccepts (W length : Nat) : Transducer (InputPath W length) (TapIn × Bool) (BitVec W) where
  next := (inputPath W length).next
  emit s i := s.accepts i.1

theorem InputFsm.inReady_of_inValid {s : InputFsm W} {i : TapIn} {inReady : Bool}
    (h : (s.wires i inReady).inValid = true) : inReady = true := by
  cases hs : s.inputState <;> simp only [wires, hs] at h <;> split at h <;> grind

namespace InputPath

def trace : InputPath W length → List (TapIn × Bool) → List (TapIn × Bool)
  | _, [] => []
  | s, i :: is => (i.1, s.syncFifo.inReady) :: trace ((inputPath W length).next s i) is

variable {s : InputPath W length}

theorem trace_fst (cs : List (TapIn × Bool)) : (s.trace cs).map Prod.fst = cs.map Prod.fst := by
  induction cs generalizing s with
  | nil => rfl
  | cons c cs ih => rw [trace, List.map_cons, List.map_cons, ih]

theorem trace_take (cs : List (TapIn × Bool)) (k : Nat) : s.trace (cs.take k) = (s.trace cs).take k := by
  induction cs generalizing s k with
  | nil => rw [List.take_nil, trace, List.take_nil]
  | cons c cs ih =>
    cases k with
    | zero => rfl
    | succ k => rw [List.take_succ_cons, trace, trace, ih, List.take_succ_cons]

theorem after_fsm (cs : List (TapIn × Bool)) :
    ((inputPath W length).after s cs).fsm = (inputCycles W).after s.fsm (s.trace cs) := by
  induction cs generalizing s with
  | nil => rfl
  | cons c cs ih =>
    rw [Transducer.after_cons, ih]
    rfl

theorem accepts_eq (cs : List (TapIn × Bool)) :
    (inputAccepts W length).emitted s cs = (inputCycles W).emitted s.fsm (s.trace cs) := by
  induction cs generalizing s with
  | nil => rfl
  | cons c cs ih =>
    rw [Transducer.emitted_cons, ih]
    rfl

/-- A cycle puts what it accepts behind the words that the FIFO held. -/
theorem next_holds {q : List (BitVec W)} (h : s.syncFifo.Holds q) (hr : s.fsm.Calm) (c : TapIn × Bool) :
    ∃ q', ((inputPath W length).next s c).syncFifo.Holds q' ∧ s.passes c.2 ++ q' = q ++ s.accepts c.1 := by
  let w := s.fsm.wires c.1 s.syncFifo.inReady
  obtain ⟨q', hq', hstep⟩ := h.next w.inValid c.2 w.inFlit
  have hpush : s.syncFifo.push w.inValid = w.inValid := by
    cases hv : w.inValid with
    | false => rfl
    | true => exact InputFsm.inReady_of_inValid hv
  rw [hpush] at hstep
  have hnext : (inputPath W length).next s c =
      ⟨(inputCycles W).next s.fsm (c.1, s.syncFifo.inReady), s.syncFifo.next w.inValid c.2 false w.inFlit⟩ := by
    rw [← show s.fsm.jtagReset = false from hr]
    rfl
  rw [hnext]
  exact ⟨q', hq', hstep⟩

/-- The words that a run accepts stay in order behind those that the FIFO held. -/
theorem run_holds {q : List (BitVec W)} (h : s.syncFifo.Holds q) {cs : List (TapIn × Bool)}
    (hcalm : (inputCycles W).Along InputFsm.Calm s.fsm (s.trace cs)) :
    ∃ q', ((inputPath W length).after s cs).syncFifo.Holds q' ∧
      (inputPath W length).emitted s cs ++ q' = q ++ (inputAccepts W length).emitted s cs := by
  induction cs generalizing s q with
  | nil => exact ⟨q, h, (List.append_nil q).symm⟩
  | cons c cs ih =>
    obtain ⟨hr, hcalm⟩ := (inputCycles W).along_cons.mp hcalm
    obtain ⟨q₁, h₁, hstep⟩ := next_holds h hr c
    obtain ⟨q₂, h₂, hrest⟩ := ih h₁ hcalm
    refine ⟨q₂, h₂, ?_⟩
    calc (s.passes c.2 ++ (inputPath W length).emitted ((inputPath W length).next s c) cs) ++ q₂
      _ = s.passes c.2 ++ (q₁ ++ (inputAccepts W length).emitted ((inputPath W length).next s c) cs) := by
        rw [List.append_assoc, hrest]
      _ = q ++ (s.accepts c.1 ++ (inputAccepts W length).emitted ((inputPath W length).next s c) cs) := by
        rw [← List.append_assoc, ← List.append_assoc, hstep]

/-- An empty FIFO is ready until a word is accepted. -/
theorem trace_ready (hlength : 0 < length) {cs : List (TapIn × Bool)} (h : s.syncFifo.Holds [])
    (hcalm : (inputCycles W).Along InputFsm.Calm s.fsm (s.trace cs))
    (hnone : (inputAccepts W length).emitted s cs = []) : ∀ c ∈ s.trace cs, c.2 = true := by
  induction cs generalizing s with
  | nil => exact fun c hc => by cases hc
  | cons c cs ih =>
    obtain ⟨hr, hcalm⟩ := (inputCycles W).along_cons.mp hcalm
    obtain ⟨haccepts, hnone⟩ := List.append_eq_nil_iff.mp hnone
    have haccepts : s.accepts c.1 = [] := haccepts
    obtain ⟨q, hq, hstep⟩ := next_holds h hr c
    rw [haccepts, List.append_nil] at hstep
    obtain rfl := (List.append_eq_nil_iff.mp hstep).2
    intro d hd
    rcases List.mem_cons.mp hd with rfl | hd
    · rw [h.inReady_eq]
      exact decide_eq_true hlength
    · exact ih hq hcalm hnone d hd

end InputPath

/-- A data transfer of the host: the sizes it asks for, the cycles of the TAP between its
scan and the transfer before it, and between the scan and Update-DR, and the readiness of
the in FIFO in every cycle. -/
structure Transfer where
  wr : Nat
  rd : Nat
  idle : List Bool
  capture : Bool
  exit : List Bool
  update : Bool
  fifoReady : Nat → Bool

namespace Transfer
variable (t : Transfer) (pending : List (BitVec W))

def Fits (W : Nat) : Prop := t.wr < 2 ^ W - 1 ∧ t.rd < 2 ^ W

def payload : List (BitVec W) := pending.take t.wr

def lead : List TapIn :=
  t.idle.map .quiet ++ .captureDr t.capture :: (requestBody t.rd (t.payload pending)).flatMap shiftWord

def tail (W : Nat) : List TapIn :=
  [(0 : BitVec W), 0].flatMap shiftWord ++ t.exit.map .quiet ++ [.updateDr t.update]

def cycles : List (TapIn × Bool) := (t.lead pending ++ t.tail W).zipIdx.map (Prod.map id t.fifoReady)

theorem cycles_fst : (t.cycles pending).map Prod.fst = t.lead pending ++ t.tail W := by
  rw [cycles, List.map_map]
  exact List.zipIdx_map_fst 0 _

end Transfer

/-- Before the tail of a request the first words of the payload are accepted and counted. -/
theorem lead_cycles (hW : 2 ≤ W) {t : Transfer} (ht : t.Fits W) {pending : List (BitVec W)}
    {cs : List (TapIn × Bool)} (hcs : cs.map Prod.fst = t.lead pending) {s : InputFsm W} {old : BitVec W}
    {error : Bool} (hs : s.Drops old error) :
    ∃ a ≤ (t.payload pending).length, ((inputCycles W).after s cs).Drops (BitVec.ofNat W a) false ∧
      (inputCycles W).emitted s cs = (t.payload pending).take a ∧ (inputCycles W).Along InputFsm.Calm s cs ∧
      ((∀ c ∈ cs, c.2 = true) → a = (t.payload pending).length) := by
  have hlt : (t.payload pending).length < 2 ^ W - 1 := Nat.lt_of_le_of_lt (List.length_take_le _ _) ht.1
  rw [Transfer.lead] at hcs
  obtain ⟨ci, cc, rfl, hci, hcc⟩ := List.map_eq_append_iff.mp hcs
  obtain ⟨⟨i, ready⟩, cb, rfl, rfl, hcb⟩ := List.map_eq_cons_iff.mp hcc
  obtain ⟨hdrops, hei, hpi⟩ := hs.inside hci (inside_quiet t.idle)
  obtain ⟨hidle, hbit, hcalm, hec⟩ := hdrops.capture t.capture ready
  obtain ⟨a, hle, hd, heb, hpb, hall⟩ := request_cycles hW hlt hcb _ hidle hbit hcalm
  rw [Transducer.after_append, Transducer.emitted_append, Transducer.along_append, Transducer.after_cons,
    Transducer.emitted_cons, Transducer.along_cons, hei, hec, heb]
  exact ⟨a, hle, hd, rfl, ⟨fun k hk => (hpi k hk).1, hdrops.calm, hpb⟩,
    fun h => hall fun c hc => h c (List.mem_append_right _ (.tail _ hc))⟩

/-- The tail changes nothing until the update. -/
theorem tail_cycles {t : Transfer} {cs : List (TapIn × Bool)} (hcs : cs.map Prod.fst = t.tail W) {s : InputFsm W}
    {acc : BitVec W} {error : Bool} (hs : s.Drops acc error) :
    ((inputCycles W).after s cs).Drops 0 false ∧ (inputCycles W).emitted s cs = [] ∧
      (inputCycles W).Along (fun s' => s'.Calm ∧ s'.accCnt = acc ∧ s'.error = error) s cs := by
  rw [Transfer.tail] at hcs
  obtain ⟨ct, cc, rfl, hct, hcc⟩ := List.map_eq_append_iff.mp hcs
  obtain ⟨⟨i, ready⟩, cu, rfl, rfl, hcu⟩ := List.map_eq_cons_iff.mp hcc
  obtain rfl := List.map_eq_nil_iff.mp hcu
  obtain ⟨hd, het, hpt⟩ := hs.inside hct fun i hi => by
    rcases List.mem_append.mp hi with hi | hi
    · exact inside_shiftWords _ i hi
    · exact inside_quiet _ i hi
  obtain ⟨hu, heu⟩ := hd.update t.update ready
  rw [Transducer.after_append, Transducer.emitted_append, Transducer.along_append, Transducer.after_cons,
    Transducer.emitted_cons, Transducer.along_cons, het, heu]
  exact ⟨hu, rfl, hpt, ⟨hd.calm, hd.accCnt, hd.error⟩, Transducer.along_nil _ _ _⟩

/-- What the state machine makes of a transfer: it accepts the first words of the payload,
and their number stands from the first word of the tail until the update. -/
theorem transfer_cycles (hW : 2 ≤ W) {t : Transfer} (ht : t.Fits W) {pending : List (BitVec W)}
    {cs : List (TapIn × Bool)} (hcs : cs.map Prod.fst = t.lead pending ++ t.tail W) {s : InputFsm W} {old : BitVec W}
    {error : Bool} (hs : s.Drops old error) :
    ∃ a ≤ (t.payload pending).length, ((inputCycles W).after s cs).Drops 0 false ∧
      (inputCycles W).emitted s cs = (t.payload pending).take a ∧ (inputCycles W).Along InputFsm.Calm s cs ∧
      ((∀ c ∈ cs, c.2 = true) → a = (t.payload pending).length) ∧
      ∀ k, (t.lead pending).length ≤ k → k < cs.length →
        ((inputCycles W).after s (cs.take k)).accCnt = BitVec.ofNat W a := by
  obtain ⟨cl, ct, rfl, hcl, hct⟩ := List.map_eq_append_iff.mp hcs
  obtain ⟨a, hle, hdl, hel, hpl, hall⟩ := lead_cycles hW ht hcl hs
  obtain ⟨hdt, het, hpt⟩ := tail_cycles hct hdl
  have hlead : (t.lead pending).length = cl.length := by rw [← hcl, List.length_map]
  rw [Transducer.after_append, Transducer.emitted_append, Transducer.along_append, hel, het, List.append_nil]
  refine ⟨a, hle, hdt, rfl, ⟨hpl, fun k hk => (hpt k hk).1⟩, fun h => hall fun c hc => h c (List.mem_append_left _ hc),
    fun k hk hk' => ?_⟩
  obtain ⟨j, rfl⟩ := Nat.exists_eq_add_of_le hk
  rw [List.length_append, hlead] at hk'
  rw [hlead, List.take_length_add_append, Transducer.after_append]
  exact (hpt j (by omega)).2.1

def Transfer.acked (t : Transfer) (s : InputPath W length) (pending : List (BitVec W)) : Nat :=
  ((inputPath W length).after s ((t.cycles pending).take (t.lead pending).length)).fsm.accCnt.toNat

/-- The host and the input path over transfers: the words that the path passes to the in
FIFO, and the words that the host has left, the acknowledged ones discarded. -/
def writeTransfers (W length : Nat) : Transducer (InputPath W length × List (BitVec W)) Transfer (BitVec W) where
  next s t := ((inputPath W length).after s.1 (t.cycles s.2), s.2.drop (t.acked s.1 s.2))
  emit s t := (inputPath W length).emitted s.1 (t.cycles s.2)

/-- Between transfers the words in the FIFO of the path and those that the host has left
are `stream`. -/
structure Between (s : InputPath W length × List (BitVec W)) (stream : List (BitVec W)) : Prop where
  drops : ∃ old error, s.1.fsm.Drops old error
  holds : ∃ q, s.1.syncFifo.Holds q ∧ q ++ s.2 = stream

section Step
variable {s : InputPath W length × List (BitVec W)} {stream : List (BitVec W)} {t : Transfer}

/-- What a transfer accepts is acknowledged, and the answer does not change any more. -/
theorem Between.accepts (h : Between s stream) (hW : 2 ≤ W) (ht : t.Fits W) :
    t.acked s.1 s.2 ≤ (t.payload s.2).length ∧
      (inputAccepts W length).emitted s.1 (t.cycles s.2) = (t.payload s.2).take (t.acked s.1 s.2) ∧
      ∀ k, (t.lead s.2).length ≤ k → k < (t.cycles s.2).length →
        ((inputPath W length).after s.1 ((t.cycles s.2).take k)).fsm.accCnt.toNat = t.acked s.1 s.2 := by
  obtain ⟨old, error, hdrops⟩ := h.drops
  have hcs : (s.1.trace (t.cycles s.2)).map Prod.fst = t.lead s.2 ++ t.tail W :=
    (InputPath.trace_fst _).trans (t.cycles_fst s.2)
  have hlength : (s.1.trace (t.cycles s.2)).length = (t.cycles s.2).length := by
    simpa using congrArg List.length (InputPath.trace_fst (s := s.1) (t.cycles s.2))
  obtain ⟨a, hle, -, hem, -, -, hstable⟩ := transfer_cycles hW ht hcs hdrops
  have hcount (k : Nat) (hk : (t.lead s.2).length ≤ k) (hk' : k < (t.cycles s.2).length) :
      ((inputPath W length).after s.1 ((t.cycles s.2).take k)).fsm.accCnt.toNat = a := by
    have hsize : (t.payload s.2).length ≤ t.wr := List.length_take_le _ _
    have hfits := ht.1
    rw [InputPath.after_fsm, InputPath.trace_take, hstable k hk (hlength ▸ hk'), BitVec.toNat_ofNat]
    exact Nat.mod_eq_of_lt (by omega)
  have hacked : t.acked s.1 s.2 = a := by
    apply hcount _ (Nat.le_refl _)
    have := congrArg List.length (t.cycles_fst s.2)
    simp only [List.length_map, List.length_append, Transfer.tail, List.length_singleton] at this
    omega
  rw [hacked, InputPath.accepts_eq]
  exact ⟨hle, hem, hcount⟩

theorem Between.next (h : Between s stream) (hW : 2 ≤ W) (ht : t.Fits W) :
    ∃ stream', Between ((writeTransfers W length).next s t) stream' ∧
      (writeTransfers W length).emit s t ++ stream' = stream := by
  obtain ⟨hle, haccepts, -⟩ := h.accepts hW ht
  obtain ⟨old, error, hdrops⟩ := h.drops
  obtain ⟨q, hq, hstream⟩ := h.holds
  have hcs : (s.1.trace (t.cycles s.2)).map Prod.fst = t.lead s.2 ++ t.tail W :=
    (InputPath.trace_fst _).trans (t.cycles_fst s.2)
  obtain ⟨a, -, hrest, -, hcalm, -⟩ := transfer_cycles hW ht hcs hdrops
  obtain ⟨q', hq', hpassed⟩ := InputPath.run_holds hq hcalm
  refine ⟨q' ++ s.2.drop (t.acked s.1 s.2), ⟨⟨0, false, ?_⟩, q', hq', rfl⟩, ?_⟩
  · rw [← InputPath.after_fsm] at hrest
    exact hrest
  · -- the payload is the front of what the host has left
    have hfront : (t.payload s.2).take (t.acked s.1 s.2) = s.2.take (t.acked s.1 s.2) := by
      rw [Transfer.payload, List.length_take] at hle
      rw [Transfer.payload, List.take_take, Nat.min_eq_left (by omega)]
    calc (inputPath W length).emitted s.1 (t.cycles s.2) ++ (q' ++ s.2.drop (t.acked s.1 s.2))
      _ = q ++ (s.2.take (t.acked s.1 s.2) ++ s.2.drop (t.acked s.1 s.2)) := by
        rw [← List.append_assoc, hpassed, haccepts, hfront, List.append_assoc]
      _ = stream := by rw [List.take_append_drop, hstream]

end Step

theorem Between.run {s : InputPath W length × List (BitVec W)} {stream : List (BitVec W)} (h : Between s stream)
    (hW : 2 ≤ W) {ts : List Transfer} (hts : ∀ t ∈ ts, t.Fits W) :
    ∃ stream', Between ((writeTransfers W length).after s ts) stream' ∧
      (writeTransfers W length).emitted s ts ++ stream' = stream := by
  induction ts generalizing s stream with
  | nil => exact ⟨stream, h, rfl⟩
  | cons t ts ih =>
    obtain ⟨mid, hmid, hem⟩ := h.next hW (hts t (.head ts))
    obtain ⟨rest, hrest, hem'⟩ := ih hmid fun u hu => hts u (.tail t hu)
    refine ⟨rest, hrest, ?_⟩
    rw [Transducer.emitted_cons, List.append_assoc, hem', hem]

theorem between_reset (s : InputPath W length) (i : TapIn) (fifoReady : Bool) (stream : List (BitVec W)) :
    Between (s.next true i fifoReady, stream) stream := by
  refine ⟨⟨0, (s.next true i fifoReady).fsm.error, ?_⟩, [], SyncFifo.holds_reset _ _ _ _, rfl⟩
  refine ⟨?_, ?_, rfl, ?_⟩ <;> simp [InputPath.next, InputFsm.next, InputFsm.Calm]

/-- From reset on, after any transfers, the words passed to the in FIFO, those still in the
path and those that the host has left are the stream of the host. And in any transfer then
the accepted words are the first `acc_cnt` words of the payload, where `acc_cnt` is the same
in every cycle from the first bit of the word that sends it to the update. -/
theorem write_exactly_once (hW : 2 ≤ W) (s₀ : InputPath W length) (i₀ : TapIn) (fifoReady₀ : Bool)
    (stream : List (BitVec W)) (ts : List Transfer) (hts : ∀ t ∈ ts, t.Fits W) :
    let start := (s₀.next true i₀ fifoReady₀, stream)
    let s := (writeTransfers W length).after start ts
    (∃ q, s.1.syncFifo.Holds q ∧ (writeTransfers W length).emitted start ts ++ q ++ s.2 = stream) ∧
      ∀ t : Transfer, t.Fits W →
        t.acked s.1 s.2 ≤ (t.payload s.2).length ∧
          (inputAccepts W length).emitted s.1 (t.cycles s.2) = (t.payload s.2).take (t.acked s.1 s.2) ∧
          ∀ k, (t.lead s.2).length ≤ k → k < (t.cycles s.2).length →
            ((inputPath W length).after s.1 ((t.cycles s.2).take k)).fsm.accCnt.toNat = t.acked s.1 s.2 := by
  intro start s
  obtain ⟨rest, hbetween, hem⟩ := (between_reset s₀ i₀ fifoReady₀ stream).run hW hts
  obtain ⟨q, hq, hrest⟩ := hbetween.holds
  refine ⟨⟨q, hq, ?_⟩, fun t ht => hbetween.accepts hW ht⟩
  rw [List.append_assoc, hrest, hem]

/-- A path that holds one word, and an in FIFO that is not ready in the first transfer: the
second word is sent again. -/
theorem write_exactly_once_refused :
    let s₀ : InputPath 8 1 := ⟨⟨.idle, 0, 0, 0, 0, false, false⟩, ⟨fun _ => 0, 0⟩⟩
    let stream : List (BitVec 8) := [0x41, 0x42]
    let t (ready : Bool) : Transfer := ⟨2, 0, [], false, [], false, fun _ => ready⟩
    let start := (s₀.next true (.quiet false) false, stream)
    let s := (writeTransfers 8 1).after start [t false, t true]
    (writeTransfers 8 1).emitted start [t false, t true] = [0x41, 0x42] ∧ s.2 = [] ∧
      ∃ q, s.1.syncFifo.Holds q ∧ (writeTransfers 8 1).emitted start [t false, t true] ++ q ++ s.2 = stream := by
  intro s₀ stream t start s
  have hfits : ∀ u ∈ [t false, t true], u.Fits 8 := by
    intro u hu
    simp only [List.mem_cons, List.not_mem_nil, or_false] at hu
    rcases hu with rfl | rfl <;> exact ⟨by decide, by decide⟩
  exact ⟨by decide, by decide, (write_exactly_once (by decide) s₀ (.quiet false) false stream _ hfits).1⟩

end Glip.Jtag
