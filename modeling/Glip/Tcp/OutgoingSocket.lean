import Glip.Tcp.DataWidths

/-! The bytes that the thread pops from `mDataOut` and the bytes that the data socket takes of them. -/
namespace Glip.Tcp
open Foundation
variable {n : Nat} {overshift : BitVec 32 → Nat → BitVec 32} {uartLike : Bool}

def OutOfReset : DpiStep n → Prop
  | .cycle i => i.rst = false
  | _ => True

def TakesAll : Option (DpiToplevel n) → DpiStep n → Prop
  | some s, .send r => s.obj.mDataOut = [] ∨ r = .all
  | _, _ => True

/-- The bytes in the queue, then those that are put into it, are those that the socket takes, then
those in the queue. -/
def Keeps (s s' : DpiToplevel n) (evs : List (DpiEvent n)) : Prop :=
  s.obj.mDataOut ++ queuedBytes evs = sentBytes evs ++ s'.obj.mDataOut

section Sends
variable (obj : GlipTcp n)

theorem send_all : obj.send .all = some { obj with mDataOut := obj.mDataOut.drop 4096 } := if_pos (.inr rfl)

theorem send_eagain : obj.send .eagain = some { obj with mDataOut := obj.mDataOut.drop 4096 } := if_pos (.inl rfl)

/-- Of an empty block every write takes all; -/
theorem send_nil (r : WriteResult) (h : obj.mDataOut = []) : obj.send r = some obj ∧ obj.taken r = [] := by
  have hblock : obj.block = [] := by rw [GlipTcp.block, h, List.take_nil]
  have htaken : obj.taken r = [] := by
    cases r <;> simp [GlipTcp.taken, hblock]
  refine ⟨?_, htaken⟩
  rw [GlipTcp.send, if_pos (.inr (by rw [htaken, hblock])), h, List.drop_nil, ← h]

/-- a part of another block ends the program. -/
theorem send_part (k : Nat) (h : obj.mDataOut ≠ []) : obj.send (.part k) = none := by
  have hpos : 0 < obj.block.length := by
    have hout := List.length_pos_iff.mpr h
    rw [GlipTcp.block, List.length_take]
    omega
  have hshort : (obj.taken (.part k)).length ≠ obj.block.length := by
    rw [GlipTcp.taken, List.length_take]
    omega
  rw [GlipTcp.send]
  apply if_neg
  rintro (heq | heq)
  · exact WriteResult.noConfusion heq
  · exact hshort heq

end Sends

section Steps
variable {P : TempStorage → List Byte → Prop} {s : DpiToplevel n} {bytes : List Byte}

variable (uartLike) in
/-- A write that fails ends the program, or loses the block. -/
theorem send_sends (h : Carrying P s bytes) (r : WriteResult) :
    (TakesAll (some s) (.send r) ∧ ∃ s' bytes' evs, s.step overshift uartLike (.send r) = some (s', evs) ∧
      Carrying P s' bytes' ∧ Keeps s s' evs) ∨
    (¬ TakesAll (some s) (.send r) ∧ (s.step overshift uartLike (.send r) = none ∨
      ∃ s' bytes', s.step overshift uartLike (.send r) = some (s', []) ∧ Carrying P s' bytes' ∧
        s'.obj.mDataOut.length < s.obj.mDataOut.length)) := by
  have hcar : Carrying P { s with obj := { s.obj with mDataOut := s.obj.mDataOut.drop 4096 } } bytes :=
    ⟨h.connected, h.control, h.read, h.write, h.rcnt⟩
  by_cases hnil : s.obj.mDataOut = []
  · obtain ⟨hsend, htaken⟩ := send_nil s.obj r hnil
    refine .inl ⟨.inl hnil, s, bytes, [], ?_, h, List.append_nil _⟩
    rw [DpiToplevel.step, hsend, htaken]
    rfl
  · cases r with
    | all =>
      refine .inl ⟨.inr rfl, _, bytes, s.obj.block.map .sent, ?_, hcar, ?_⟩
      · rw [DpiToplevel.step, send_all]
        rfl
      · have hsent : sentBytes (s.obj.block.map (DpiEvent.sent (n := n))) = s.obj.block := by
          rw [sentBytes, List.filterMap_map]
          exact List.filterMap_some
        rw [Keeps, hsent, queuedBytes, filterMap_sent _ _ fun _ => rfl, List.append_nil]
        exact (List.take_append_drop 4096 _).symm
    | part k =>
      refine .inr ⟨?_, .inl ?_⟩
      · rintro (heq | heq)
        · exact hnil heq
        · exact WriteResult.noConfusion heq
      · rw [DpiToplevel.step, send_part s.obj k hnil]
        rfl
    | eagain =>
      refine .inr ⟨?_, .inr ⟨_, bytes, ?_, hcar, ?_⟩⟩
      · rintro (heq | heq)
        · exact hnil heq
        · exact WriteResult.noConfusion heq
      · rw [DpiToplevel.step, send_eagain]
        rfl
      · have hout := List.length_pos_iff.mpr hnil
        rw [List.length_drop]
        omega

variable (uartLike) in
/-- A step keeps the bytes if the write takes all; otherwise it fails, or bytes are gone. -/
theorem step_sends (hP : Preserved overshift n P) (hpos : 0 < n) (hn : n ≤ 8) (h : Carrying P s bytes) (e : DpiStep n)
    (he : OutOfReset e) :
    (TakesAll (some s) e ∧ ∃ s' bytes' evs, s.step overshift uartLike e = some (s', evs) ∧ Carrying P s' bytes' ∧
      Keeps s s' evs) ∨
    (¬ TakesAll (some s) e ∧ (s.step overshift uartLike e = none ∨
      ∃ s' bytes', s.step overshift uartLike e = some (s', []) ∧ Carrying P s' bytes' ∧
        s'.obj.mDataOut.length < s.obj.mDataOut.length)) := by
  cases e with
  | cycle i =>
    obtain ⟨s', bytes', evs, hcycle, h'⟩ := cycle_carries uartLike hP hpos hn h i he
    refine .inl ⟨trivial, s', bytes', evs, hcycle, h'.carrying, ?_⟩
    rw [Keeps, h'.unsentQuiet, h'.dataOut]
    rfl
  | data b =>
    obtain ⟨s', bytes', evs, hstep, h'⟩ := step_carries uartLike hP hpos hn h (.data b) trivial
    refine .inl ⟨trivial, s', bytes', evs, hstep, h'.carrying, ?_⟩
    cases hstep
    rw [GlipTcp.receiveData]
    by_cases hroom : s.obj.mDataIn.length < dataCapacity
    · rw [if_pos hroom, if_pos hroom]
      exact List.append_nil _
    · rw [if_neg hroom, if_neg hroom]
      exact List.append_nil _
  | control b =>
    obtain ⟨s', bytes', evs, hstep, h'⟩ := step_carries uartLike hP hpos hn h (.control b) trivial
    refine .inl ⟨trivial, s', bytes', evs, hstep, h'.carrying, ?_⟩
    cases hstep
    rw [GlipTcp.receiveControl]
    by_cases hroom : s.obj.mControl.length < controlCapacity
    · rw [if_pos hroom, if_pos hroom]
      exact List.append_nil _
    · rw [if_neg hroom, if_neg hroom]
      exact List.append_nil _
  | send r => exact send_sends uartLike h r

theorem after_none (steps : List (DpiStep n)) : (dpiRun n overshift uartLike).after none steps = none := by
  induction steps with
  | nil => rfl
  | cons e steps ih => exact ih

theorem after_of_step_none {e : DpiStep n} (h : s.step overshift uartLike e = none) (steps : List (DpiStep n)) :
    (dpiRun n overshift uartLike).after (some s) (e :: steps) = none := by
  have hnext : (dpiRun n overshift uartLike).next (some s) e = none := congrArg (Option.map Prod.fst) h
  rw [Transducer.after_cons, hnext, after_none]

theorem Keeps.cons {s₁ s' : DpiToplevel n} {evs evs' : List (DpiEvent n)} (h : Keeps s s₁ evs) :
    Keeps s s' (evs ++ evs') ↔ Keeps s₁ s' evs' := by
  have hqueued : queuedBytes (evs ++ evs') = queuedBytes evs ++ queuedBytes evs' := List.filterMap_append
  have hsent : sentBytes (evs ++ evs') = sentBytes evs ++ sentBytes evs' := List.filterMap_append
  rw [Keeps, hqueued, hsent, ← List.append_assoc, h, List.append_assoc, List.append_assoc, List.append_cancel_left_eq,
    Keeps]

/-- No bytes come from nowhere. -/
theorem run_length_le (hP : Preserved overshift n P) (hpos : 0 < n) (hn : n ≤ 8) (steps : List (DpiStep n))
    (hsteps : ∀ e ∈ steps, OutOfReset e) (h : Carrying P s bytes) {s' : DpiToplevel n}
    (hafter : (dpiRun n overshift uartLike).after (some s) steps = some s') :
    (sentBytes (eventsOf n overshift uartLike s steps)).length + s'.obj.mDataOut.length ≤
      s.obj.mDataOut.length + (queuedBytes (eventsOf n overshift uartLike s steps)).length := by
  induction steps generalizing s bytes with
  | nil =>
    cases hafter
    exact (Nat.zero_add _).le
  | cons e steps ih =>
    have hrest := fun e' he' => hsteps e' (.tail e he')
    rcases step_sends uartLike hP hpos hn h e (hsteps e (.head steps)) with
      ⟨_, s₁, bytes₁, evs, hstep, hcar, hkeep⟩ | ⟨_, hnone | ⟨s₁, bytes₁, hstep, hcar, hlt⟩⟩
    · rw [after_cons_step hstep] at hafter
      have hle := ih hrest hcar hafter
      have hlen := congrArg List.length hkeep
      rw [List.length_append, List.length_append] at hlen
      rw [eventsOf_cons_step hstep, sentBytes, queuedBytes, List.filterMap_append, List.filterMap_append,
        List.length_append, List.length_append, ← sentBytes, ← sentBytes, ← queuedBytes, ← queuedBytes]
      omega
    · rw [after_of_step_none hnone] at hafter
      exact absurd hafter (Option.some_ne_none s').symm
    · rw [after_cons_step hstep] at hafter
      have hle := ih hrest hcar hafter
      rw [eventsOf_cons_step hstep, List.nil_append]
      omega

variable (uartLike) in
theorem run_keeps_iff (hP : Preserved overshift n P) (hpos : 0 < n) (hn : n ≤ 8) (steps : List (DpiStep n))
    (hsteps : ∀ e ∈ steps, OutOfReset e) (h : Carrying P s bytes) :
    (∃ s', (dpiRun n overshift uartLike).after (some s) steps = some s' ∧
        Keeps s s' (eventsOf n overshift uartLike s steps)) ↔
      (dpiRun n overshift uartLike).Each TakesAll (some s) steps := by
  induction steps generalizing s bytes with
  | nil => exact ⟨fun _ => trivial, fun _ => ⟨s, rfl, List.append_nil _⟩⟩
  | cons e steps ih =>
    have hrest := fun e' he' => hsteps e' (.tail e he')
    rcases step_sends uartLike hP hpos hn h e (hsteps e (.head steps)) with
      ⟨hall, s₁, bytes₁, evs, hstep, hcar, hkeep⟩ | ⟨hnot, hlost⟩
    · rw [after_cons_step hstep, eventsOf_cons_step hstep, Transducer.Each, dpiRun_next hstep, ← ih hrest hcar]
      constructor
      · rintro ⟨s', hafter, hkeeps⟩
        exact ⟨hall, s', hafter, hkeep.cons.mp hkeeps⟩
      · rintro ⟨_, s', hafter, hkeeps⟩
        exact ⟨s', hafter, hkeep.cons.mpr hkeeps⟩
    · constructor
      · rintro ⟨s', hafter, hkeeps⟩
        rcases hlost with hnone | ⟨s₁, bytes₁, hstep, hcar, hlt⟩
        · rw [after_of_step_none hnone] at hafter
          exact absurd hafter (Option.some_ne_none s').symm
        · -- what is gone is missing at the end
          rw [after_cons_step hstep] at hafter
          rw [eventsOf_cons_step hstep, List.nil_append] at hkeeps
          have hle := run_length_le hP hpos hn steps hrest hcar hafter
          have hlen := congrArg List.length hkeeps
          rw [List.length_append, List.length_append] at hlen
          omega
      · rintro ⟨hall, _⟩
        exact absurd hall hnot

end Steps

/-- Along a run of a connection the socket has taken a prefix of the bytes put into `mDataOut` and the rest is
queued, exactly if every write of a block that is not empty takes all of it. -/
theorem socket_keeps_iff (hpos : 0 < n) (hn : n ≤ 8) (overshift : BitVec 32 → Nat → BitVec 32) (uartLike : Bool)
    (s : DpiToplevel n) (hs : s.Connected) (steps : List (DpiStep n)) (hsteps : ∀ e ∈ steps, OutOfReset e) :
    (∃ s', (dpiRun n overshift uartLike).after (some s) steps = some s' ∧
        queuedBytes (eventsOf n overshift uartLike s steps) =
          sentBytes (eventsOf n overshift uartLike s steps) ++ s'.obj.mDataOut) ↔
      (dpiRun n overshift uartLike).Each TakesAll (some s) steps := by
  have hP : Preserved overshift n fun item _ => SignBits item := signBits_preserved
  have hkeeps := run_keeps_iff uartLike hP hpos hn steps hsteps (hs.carrying hP hpos)
  simp only [Keeps, hs.obj] at hkeeps
  exact hkeeps

def wordRun (r : WriteResult) : List (DpiStep 2) :=
  [.cycle ⟨false, false, true, 0x1234⟩, .cycle ⟨false, false, false, 0⟩, .send r, .send .all]

theorem socket_keeps_word : ∃ s', (dpiRun 2 (fun x k => x <<< (k % 32)) false).after (some (start 2)) (wordRun .all) = some s' ∧
    queuedBytes (eventsOf 2 (fun x k => x <<< (k % 32)) false (start 2) (wordRun .all)) =
      sentBytes (eventsOf 2 (fun x k => x <<< (k % 32)) false (start 2) (wordRun .all)) ++ s'.obj.mDataOut :=
  (socket_keeps_iff (by decide) (by decide) (fun x k => x <<< (k % 32)) false (start 2) ⟨rfl, by decide, by decide⟩
    (wordRun .all) (by simp [wordRun, OutOfReset])).mpr ⟨trivial, trivial, .inr rfl, .inr rfl, trivial⟩

/-- Two bytes that the socket does not take at once are gone. -/
theorem eagain_loses : ¬ ∃ s', (dpiRun 2 (fun x k => x <<< (k % 32)) false).after (some (start 2)) (wordRun .eagain) = some s' ∧
    queuedBytes (eventsOf 2 (fun x k => x <<< (k % 32)) false (start 2) (wordRun .eagain)) =
      sentBytes (eventsOf 2 (fun x k => x <<< (k % 32)) false (start 2) (wordRun .eagain)) ++ s'.obj.mDataOut := by
  have hqueued : queuedBytes (eventsOf 2 (fun x k => x <<< (k % 32)) false (start 2) (wordRun .eagain)) = [0x12, 0x34] := by
    decide
  have hsent : sentBytes (eventsOf 2 (fun x k => x <<< (k % 32)) false (start 2) (wordRun .eagain)) = [] := by decide
  have hout : ((dpiRun 2 (fun x k => x <<< (k % 32)) false).after (some (start 2)) (wordRun .eagain)).map
    (fun s => s.obj.mDataOut) = some [] := by decide
  rintro ⟨s', hafter, hkeeps⟩
  rw [hafter] at hout
  have hempty : s'.obj.mDataOut = [] := Option.some.inj hout
  rw [hqueued, hsent, hempty] at hkeeps
  exact absurd hkeeps (by decide)

end Glip.Tcp
