import Glip.Tcp.SystemcToplevel

/-! The words that cross the ports of the SystemC module, against those in its queues. -/
namespace Glip.Tcp
open Foundation

inductive Shown
  | nothing
  | front
  /-- it has left the queue and waits to be read -/
  | popped
  /-- it has been read, and left the queue at the same edge -/
  | taken
  deriving DecidableEq

def Shown.next (shown : Shown) (s : SystemcToplevel) : SystemcStep → Shown
  | .clk i =>
    if s.mInputQueue.isEmpty then .nothing
    else if i.fifoInReady then if shown = .front then .taken else .popped
    else .front
  | _ => shown

def systemcRun : Transducer (SystemcToplevel × Shown) SystemcStep SystemcEvent where
  next p e := ((p.1.step e).1, p.2.next p.1 e)
  emit p e := (p.1.step e).2

def onPort (p : SystemcToplevel × Shown) : List Word := if p.2 = .popped then [p.1.fifoInData] else []

/-- A part of a run transfers by the rule of the FIFOs: the words that there were and those that are received are
delivered in order, up to those that there are now; those that are pushed are the accepted ones. -/
structure Transfers (p p' : SystemcToplevel × Shown) (evs : List SystemcEvent) : Prop where
  incoming : deliveredWords evs ++ (onPort p' ++ p'.1.mInputQueue) = onPort p ++ p.1.mInputQueue ++ receivedWords evs
  outgoing : pushedWords evs = acceptedWords evs

/-- An edge at which the user logic has valid only with ready, has ready for a word that is only on the port, and has
not ready for one that it has read. -/
def Timely (p : SystemcToplevel × Shown) : SystemcStep → Prop
  | .clk i =>
    (i.fifoOutValid = true → p.1.fifoOutReady = true) ∧ (p.2 = .popped → i.fifoInReady = true) ∧
      (p.2 = .taken → i.fifoInReady = false)
  | _ => True

def Linked (p : SystemcToplevel × Shown) : Prop :=
  p.1.fifoInValid = (p.2 != .nothing) ∧ (p.2 = .front → p.1.mInputQueue.head? = some p.1.fifoInData)

theorem linked_next {p : SystemcToplevel × Shown} (h : Linked p) (e : SystemcStep) : Linked (systemcRun.next p e) := by
  obtain ⟨s, shown⟩ := p
  obtain ⟨hvalid, hfront⟩ := h
  cases e with
  | recv chunk =>
    refine ⟨hvalid, fun hs => ?_⟩
    have hhead : s.mInputQueue.head? = some s.fifoInData := hfront hs
    exact (List.head?_append).trans (by rw [hhead]; rfl)
  | send => exact ⟨hvalid, hfront⟩
  | clk i =>
    rw [Linked, systemcRun]
    dsimp only [SystemcToplevel.step, SystemcToplevel.fifoIfProc, Shown.next]
    cases s.mInputQueue with
    | nil => exact ⟨rfl, Shown.noConfusion⟩
    | cons word words =>
      cases i.fifoInReady with
      | true =>
        by_cases hs : shown = .front
        · subst hs
          exact ⟨rfl, Shown.noConfusion⟩
        · rw [List.isEmpty_cons, if_neg Bool.false_ne_true, if_pos rfl, if_neg hs]
          exact ⟨rfl, Shown.noConfusion⟩
      | false => exact ⟨rfl, fun _ => rfl⟩

/-- The words on `fifo_in` at an edge. -/
theorem incoming_iff {p : SystemcToplevel × Shown} (h : Linked p) (i : SystemcCycle) :
    (if p.1.fifoInValid && i.fifoInReady then [p.1.fifoInData] else []) ++
        (onPort (systemcRun.next p (.clk i)) ++ (systemcRun.next p (.clk i)).1.mInputQueue) = onPort p ++ p.1.mInputQueue ↔
      (p.2 = .popped → i.fifoInReady = true) ∧ (p.2 = .taken → i.fifoInReady = false) := by
  obtain ⟨⟨queue, out, ready, valid, data⟩, shown⟩ := p
  obtain ⟨hvalid, hfront⟩ := h
  dsimp only at hvalid hfront
  subst hvalid
  dsimp only [systemcRun, SystemcToplevel.step, SystemcToplevel.fifoIfProc, Shown.next, onPort]
  cases hr : i.fifoInReady <;> cases shown <;> cases queue <;> simp_all

section Events
variable (s : SystemcToplevel) (i : SystemcCycle)

theorem deliveredWords_clk : deliveredWords (s.step (.clk i)).2 =
    if s.fifoInValid && i.fifoInReady then [s.fifoInData] else [] := by
  cases hv : i.fifoOutValid <;> cases ho : s.fifoOutReady <;> cases hd : s.fifoInValid && i.fifoInReady <;>
    simp [deliveredWords, SystemcToplevel.step, hv, ho, hd]

theorem receivedWords_clk : receivedWords (s.step (.clk i)).2 = [] := by
  cases hv : i.fifoOutValid <;> cases ho : s.fifoOutReady <;> cases hd : s.fifoInValid && i.fifoInReady <;>
    simp [receivedWords, SystemcToplevel.step, hv, ho, hd]

theorem receivedWords_recv (chunk : List Byte) : receivedWords (s.step (.recv chunk)).2 = chunkWords chunk := by
  rw [SystemcToplevel.step, receivedWords, List.filterMap_map]
  exact List.filterMap_some

theorem outgoing_clk_iff : pushedWords (s.step (.clk i)).2 = acceptedWords (s.step (.clk i)).2 ↔
    (i.fifoOutValid = true → s.fifoOutReady = true) := by
  cases hv : i.fifoOutValid <;> cases ho : s.fifoOutReady <;> cases hd : s.fifoInValid && i.fifoInReady <;>
    simp [pushedWords, acceptedWords, SystemcToplevel.step, hv, ho, hd]

end Events

theorem transfers_iff {p : SystemcToplevel × Shown} (h : Linked p) (e : SystemcStep) :
    Transfers p (systemcRun.next p e) (systemcRun.emit p e) ↔ Timely p e := by
  cases e with
  | clk i =>
    have hin := incoming_iff h i
    rw [← deliveredWords_clk] at hin
    have hout := outgoing_clk_iff p.1 i
    constructor
    · rintro ⟨hincoming, houtgoing⟩
      refine ⟨hout.mp houtgoing, hin.mp ?_⟩
      rw [← List.append_nil (onPort p ++ _), ← receivedWords_clk p.1 i]
      exact hincoming
    · rintro ⟨hvalid, hready⟩
      refine ⟨?_, hout.mpr hvalid⟩
      have heq := hin.mpr hready
      rw [← List.append_nil (onPort p ++ _), ← receivedWords_clk p.1 i] at heq
      exact heq
  | recv chunk =>
    have hnone (f : SystemcEvent → Option Word) (hf : ∀ word, f (.received word) = none) :
        ((chunkWords chunk).map SystemcEvent.received).filterMap f = [] := by
      rw [List.filterMap_map]
      exact List.filterMap_eq_nil_iff.mpr fun word _ => hf word
    refine ⟨fun _ => trivial, fun _ => ⟨?_, ?_⟩⟩
    · have hdel : deliveredWords ((chunkWords chunk).map .received) = [] := hnone _ fun _ => rfl
      have heq : onPort p ++ (p.1.mInputQueue ++ chunkWords chunk) = onPort p ++ p.1.mInputQueue ++ chunkWords chunk :=
        (List.append_assoc ..).symm
      have hrec : receivedWords (systemcRun.emit p (.recv chunk)) = chunkWords chunk := receivedWords_recv p.1 chunk
      rw [hrec, systemcRun]
      dsimp only [SystemcToplevel.step]
      rw [hdel]
      exact heq
    · exact (hnone _ fun _ => rfl).trans (hnone _ fun _ => rfl).symm
  | send => exact ⟨fun _ => trivial, fun _ => ⟨(List.append_nil _).symm, rfl⟩⟩

theorem Transfers.refl (p : SystemcToplevel × Shown) : Transfers p p [] := ⟨(List.append_nil _).symm, rfl⟩

/-- A transfer by the rule, and what follows it. -/
theorem Transfers.cons {p p₁ p' : SystemcToplevel × Shown} {evs evs' : List SystemcEvent} (h : Transfers p p₁ evs) :
    Transfers p p' (evs ++ evs') ↔ Transfers p₁ p' evs' := by
  have hin : deliveredWords (evs ++ evs') ++ (onPort p' ++ p'.1.mInputQueue) =
      onPort p ++ p.1.mInputQueue ++ receivedWords (evs ++ evs') ↔
        deliveredWords evs' ++ (onPort p' ++ p'.1.mInputQueue) = onPort p₁ ++ p₁.1.mInputQueue ++ receivedWords evs' := by
    rw [deliveredWords, receivedWords, List.filterMap_append, List.filterMap_append, ← List.append_assoc (onPort p ++ _),
      ← deliveredWords, ← receivedWords, ← h.incoming, List.append_assoc, List.append_assoc (deliveredWords evs),
      List.append_cancel_left_eq]
    rfl
  have hout : pushedWords (evs ++ evs') = acceptedWords (evs ++ evs') ↔ pushedWords evs' = acceptedWords evs' := by
    rw [pushedWords, acceptedWords, List.filterMap_append, List.filterMap_append, ← pushedWords, ← acceptedWords,
      h.outgoing, List.append_cancel_left_eq]
    rfl
  constructor
  · rintro ⟨hi, ho⟩
    exact ⟨hin.mp hi, hout.mp ho⟩
  · rintro ⟨hi, ho⟩
    exact ⟨hin.mpr hi, hout.mpr ho⟩

/-- The edges of a run are timely exactly if the words transfer by the rule all along it. -/
theorem run_transfers_iff (steps : List SystemcStep) {p : SystemcToplevel × Shown} (h : Linked p) :
    (∀ k ≤ steps.length, Transfers p (systemcRun.after p (steps.take k)) (systemcRun.emitted p (steps.take k))) ↔
      systemcRun.Each Timely p steps := by
  induction steps generalizing p with
  | nil =>
    refine ⟨fun _ => trivial, fun _ k _ => ?_⟩
    rw [List.take_nil]
    exact .refl p
  | cons e steps ih =>
    rw [Transducer.Each, ← ih (linked_next h e)]
    constructor
    · intro hall
      have hone := hall 1 (Nat.succ_le_succ (Nat.zero_le _))
      rw [List.take_succ_cons, List.take_zero, Transducer.emitted_cons, Transducer.emitted_nil, List.append_nil] at hone
      have hfirst : Transfers p (systemcRun.next p e) (systemcRun.emit p e) := hone
      refine ⟨(transfers_iff h e).mp hfirst, fun k hk => ?_⟩
      have hnext := hall (k + 1) (Nat.succ_le_succ hk)
      rw [List.take_succ_cons, Transducer.after_cons, Transducer.emitted_cons] at hnext
      exact hfirst.cons.mp hnext
    · rintro ⟨htimely, hrest⟩ k hk
      cases k with
      | zero => exact .refl p
      | succ k =>
        rw [List.take_succ_cons, Transducer.after_cons, Transducer.emitted_cons]
        exact ((transfers_iff h e).mpr htimely).cons.mpr (hrest k (Nat.le_of_succ_le_succ hk))

/-- From any contents of the queues, with nothing on `fifo_in`: the words transfer by the rule all along a run exactly
if its edges are timely. -/
theorem handshake_iff (s : SystemcToplevel) (hs : s.fifoInValid = false) (steps : List SystemcStep) :
    (∀ k ≤ steps.length,
      Transfers (s, .nothing) (systemcRun.after (s, .nothing) (steps.take k)) (systemcRun.emitted (s, .nothing) (steps.take k))) ↔
      systemcRun.Each Timely (s, .nothing) steps :=
  run_transfers_iff steps ⟨hs, Shown.noConfusion⟩

def twoWords : SystemcToplevel := ⟨[1, 2], [], true, false, 0⟩

def edges (readies : List Bool) : List SystemcStep := readies.map fun ready => .clk ⟨false, 0, ready⟩

/-- With ready at every edge the two words come once. -/
theorem handshake_always_ready :
    Transfers (twoWords, .nothing) (systemcRun.after (twoWords, .nothing) ((edges [true, true, true]).take 3))
      (systemcRun.emitted (twoWords, .nothing) ((edges [true, true, true]).take 3)) := by
  have htimely : systemcRun.Each Timely (twoWords, .nothing) (edges [true, true, true]) := by
    simp [edges, Transducer.Each, Timely, systemcRun, Shown.next, SystemcToplevel.step, SystemcToplevel.fifoIfProc, twoWords]
  exact (handshake_iff twoWords rfl (edges [true, true, true])).mpr htimely 3 (Nat.le_refl _)

/-- With ready from the second edge on the first word comes twice. -/
theorem handshake_repeats : ¬ ∀ k ≤ (edges [false, true, true]).length,
    Transfers (twoWords, .nothing) (systemcRun.after (twoWords, .nothing) ((edges [false, true, true]).take k))
      (systemcRun.emitted (twoWords, .nothing) ((edges [false, true, true]).take k)) := by
  intro h
  have hin := (h 3 (Nat.le_refl _)).incoming
  have hdelivered : deliveredWords (systemcRun.emitted (twoWords, .nothing) ((edges [false, true, true]).take 3)) = [1, 1] := by
    decide
  have hlen := congrArg List.length hin
  rw [hdelivered] at hlen
  exact absurd hlen (by decide)

end Glip.Tcp
