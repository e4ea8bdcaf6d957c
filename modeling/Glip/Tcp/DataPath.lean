import Mathlib.Data.List.Forall2
import Mathlib.Order.Nat
import Glip.Tcp.DataItems
import Glip.Tcp.DpiToplevel

/-! The bytes that the module carries in both directions, over all its runs. -/
namespace Glip.Tcp
open Foundation
variable {n : Nat}

structure Reading (P : TempStorage → List Byte → Prop) (n : Nat) (item : TempStorage) (held : List Byte) : Prop where
  mPartial : item.mPartial = held.length
  length : held.length ≤ n
  valid : item.valid = (held.length == n)
  value : P item held

def unsent (n : Nat) (item : TempStorage) : List Byte :=
  if item.valid then (beBytes (item.value.setWidth (8 * n))).drop item.mPartial else []

theorem unsent_of_ne (item : TempStorage) (m : Nat) :
    unsent n { item with mPartial := m, valid := m != n } = (beBytes (item.value.setWidth (8 * n))).drop m := by
  by_cases h : m = n
  · subst h
    rw [unsent, bne_self_eq_false, if_neg Bool.false_ne_true, List.drop_eq_nil_of_le (length_beBytes _).le]
  · rw [unsent, if_pos (bne_iff_ne.mpr h)]

structure Carrying (P : TempStorage → List Byte → Prop) (s : DpiToplevel n) (held : List Byte) : Prop where
  connected : s.obj.mConnected = true
  control : s.obj.mControlItem.valid = false
  read : Reading P n s.obj.mReadItem held
  write : s.obj.mWriteItem.mPartial ≤ n
  rcnt : s.rcnt ≤ uartDelay

/-- What is asked of `P`: it does not look at `valid`, and a byte more preserves it. -/
structure Preserved (overshift : BitVec 32 → Nat → BitVec 32) (n : Nat) (P : TempStorage → List Byte → Prop) : Prop where
  reset : P .reset []
  valid : ∀ item held v, P item held → P { item with valid := v } held
  add : ∀ item held data, P item held → item.mPartial = held.length → held.length < n →
    P (item.add overshift n data) (held ++ [data])

section Parts
variable {overshift : BitVec 32 → Nat → BitVec 32} {P : TempStorage → List Byte → Prop} {obj : GlipTcp n} {held : List Byte}

theorem Reading.reset (hP : Preserved overshift n P) (hn : 0 < n) : Reading P n .reset [] :=
  ⟨rfl, Nat.zero_le n, (beq_eq_false_iff_ne.mpr hn.ne).symm, hP.reset⟩

section Frames
variable (overshift : BitVec 32 → Nat → BitVec 32) (obj : GlipTcp n)

/-- The part for the incoming data leaves the rest alone, -/
theorem nextRead_frame :
    ∃ queue item, obj.nextRead overshift = { obj with mDataIn := queue, mReadItem := item } := by
  rw [GlipTcp.nextRead]
  split
  · exact ⟨_, _, rfl⟩
  · exact ⟨_, _, rfl⟩

/-- and so does the part for the outgoing data. -/
theorem nextWrite_frame : ∃ queue item, obj.nextWrite = { obj with mDataOut := queue, mWriteItem := item } := by
  rw [GlipTcp.nextWrite]
  split
  · exact ⟨_, _, rfl⟩
  · exact ⟨_, _, rfl⟩

end Frames

variable (obj) in
/-- The part for the incoming data: the bytes stay in order, and the item is whole or the queue empty. -/
theorem nextRead_reading (hP : Preserved overshift n P) (h : Reading P n obj.mReadItem held) :
    ∃ held', Reading P n (obj.nextRead overshift).mReadItem held' ∧
      held' ++ (obj.nextRead overshift).mDataIn = held ++ obj.mDataIn ∧
      (held'.length = n ∨ (obj.nextRead overshift).mDataIn = []) := by
  rw [GlipTcp.nextRead]
  cases hv : obj.mReadItem.valid with
  | true =>
    rw [h.valid] at hv
    exact ⟨held, h, rfl, .inl (eq_of_beq hv)⟩
  | false =>
    obtain ⟨hval, hpart, hq⟩ := popItem_fills overshift hP.add obj.mDataIn h.value h.mPartial h.length
    refine ⟨filled n held obj.mDataIn, ⟨hpart, length_filled_le h.length _, ?_, hP.valid _ _ _ hval⟩, ?_, ?_⟩
    · exact congrArg (· == n) hpart
    · rw [← filled_append (n := n) held obj.mDataIn]
      exact congrArg _ hq
    · rcases filled_length_or held obj.mDataIn h.length with hlen | hnil
      · exact .inl hlen
      · exact .inr (hq.trans hnil)

variable (obj) in
/-- The part for the outgoing data: what is pushed are the next bytes of the item. -/
theorem nextWrite_pushes (hn : n ≤ 8) (h : obj.mWriteItem.mPartial ≤ n) :
    ∃ pushed, obj.nextWrite.mDataOut = obj.mDataOut ++ pushed ∧
      unsent n obj.mWriteItem = pushed ++ unsent n obj.nextWrite.mWriteItem ∧
      obj.nextWrite.mWriteItem.mPartial ≤ n ∧
      (obj.mDataOut.length + n ≤ dataCapacity → obj.nextWrite.mWriteItem.valid = false) := by
  rw [GlipTcp.nextWrite]
  cases hv : obj.mWriteItem.valid with
  | false =>
    refine ⟨[], (List.append_nil _).symm, rfl, h, fun _ => hv⟩
  | true =>
    rw [if_pos rfl, pushItem_eq dataCapacity (Nat.sub_le n _) hn]
    refine ⟨_, rfl, ?_, ?_, ?_⟩
    · rw [unsent_of_ne, unsent, if_pos hv, Nat.sub_sub_self h, ← List.drop_drop]
      exact (List.take_append_drop _ _).symm
    · dsimp only
      omega
    · intro hroom
      have hall : obj.mWriteItem.mPartial + min (n - obj.mWriteItem.mPartial) (dataCapacity - obj.mDataOut.length) = n := by
        omega
      exact (congrArg (· != n) hall).trans (bne_self_eq_false n)

end Parts

structure Advances (P : TempStorage → List Byte → Prop) (obj obj' : GlipTcp n) (held held' pushed : List Byte) : Prop where
  connected : obj'.mConnected = true
  read : Reading P n obj'.mReadItem held'
  write : obj'.mWriteItem.mPartial ≤ n
  incoming : held' ++ obj'.mDataIn = held ++ obj.mDataIn
  whole : held'.length = n ∨ obj'.mDataIn = []
  outgoing : obj'.mDataOut = obj.mDataOut ++ pushed
  unsent : unsent n obj.mWriteItem = pushed ++ unsent n obj'.mWriteItem
  room : obj.mDataOut.length + n ≤ dataCapacity → obj'.mWriteItem.valid = false

structure Falls (overshift : BitVec 32 → Nat → BitVec 32) (uartLike : Bool) (P : TempStorage → List Byte → Prop)
    (s : DpiToplevel n) (message : Option (BitVec 32)) (s' : DpiToplevel n) (held held' pushed : List Byte) : Prop where
  obj : Advances P s.obj s'.obj held held' pushed
  control : s'.obj.mControlItem.valid = false
  mControl : s'.obj.mControl = (s.obj.nextControl overshift).mControl
  mControlItem : s'.obj.mControlItem.value = (s.obj.nextControl overshift).mControlItem.value ∧
    s'.obj.mControlItem.mPartial = if (s.obj.nextControl overshift).mControlItem.valid then 0
      else (s.obj.nextControl overshift).mControlItem.mPartial
  shown : message = if (s.obj.nextControl overshift).mControlItem.valid then
    some ((s.obj.nextControl overshift).mControlItem.value.setWidth 32) else none
  logicRst : s'.logicRst = message.any (BitVec.getLsbD · 0)
  rcnt : s'.rcnt = DpiToplevel.armed uartLike s'.obj.mReadItem.valid s.rcnt - 1
  inValid : s'.fifoInValid = (s'.obj.mReadItem.valid &&
    (!uartLike || DpiToplevel.armed uartLike s'.obj.mReadItem.valid s.rcnt == 1))
  inData : s'.fifoInValid = true → s'.fifoInData = s'.obj.mReadItem.value.setWidth (8 * n)
  outReady : s'.fifoOutReady = true → s'.obj.mWriteItem.valid = false

section Cycle
variable {overshift : BitVec 32 → Nat → BitVec 32} {uartLike : Bool} {P : TempStorage → List Byte → Prop}
  {s : DpiToplevel n} {held : List Byte}

theorem nextCycle_advances (hP : Preserved overshift n P) (hn : n ≤ 8) (h : Carrying P s held) :
    ∃ obj held' pushed, s.obj.nextCycle overshift =
        some (⟨obj.mControlItem.valid, obj.mReadItem.valid, !obj.mWriteItem.valid⟩, obj) ∧
      Advances P s.obj obj held held' pushed ∧ obj.mControl = (s.obj.nextControl overshift).mControl ∧
      obj.mControlItem = (s.obj.nextControl overshift).mControlItem := by
  obtain ⟨held', hread, hin, hwhole⟩ := nextRead_reading (s.obj.nextControl overshift) hP h.read
  obtain ⟨queue, item, heq⟩ := nextRead_frame overshift (s.obj.nextControl overshift)
  rw [heq] at hread hin hwhole
  obtain ⟨pushed, hout, hunsent, hle, hroom⟩ :=
    nextWrite_pushes { s.obj.nextControl overshift with mDataIn := queue, mReadItem := item } hn h.write
  obtain ⟨out, item', heq'⟩ := nextWrite_frame { s.obj.nextControl overshift with mDataIn := queue, mReadItem := item }
  rw [heq'] at hout hunsent hle hroom
  rw [GlipTcp.nextCycle, h.connected, h.control, heq, heq']
  exact ⟨_, held', pushed, rfl, ⟨h.connected, hread, hle, hin, hwhole, hout, hunsent, hroom⟩, rfl, rfl⟩

/-- Taking the message touches the item of the message only. -/
theorem controlMsg_frame (obj : GlipTcp n) :
    ∃ item : TempStorage, (if obj.mControlItem.valid then obj.controlMsg.2 else obj) = { obj with mControlItem := item } ∧
      item.valid = false ∧ item.value = obj.mControlItem.value ∧
      item.mPartial = if obj.mControlItem.valid then 0 else obj.mControlItem.mPartial := by
  cases hv : obj.mControlItem.valid with
  | true => exact ⟨_, rfl, rfl, rfl, rfl⟩
  | false => exact ⟨obj.mControlItem, rfl, hv, rfl, rfl⟩

variable (uartLike) in
theorem negedge_falls (hP : Preserved overshift n P) (hn : n ≤ 8) (h : Carrying P s held) :
    ∃ message s' held' pushed, s.negedge overshift uartLike false = some (message, s') ∧
      Falls overshift uartLike P s message s' held held' pushed := by
  obtain ⟨obj, held', pushed, heq, hadv, hqueue, hmsg⟩ := nextCycle_advances hP hn h
  obtain ⟨item, hctl, hfree, hitem⟩ := controlMsg_frame obj
  have hready {b : Bool} : (!obj.mWriteItem.valid && b) = true → obj.mWriteItem.valid = false := by
    intro hb
    simpa using (Bool.and_eq_true_iff.mp hb).1
  have hobj : Advances P s.obj { obj with mControlItem := item } held held' pushed :=
    ⟨hadv.connected, hadv.read, hadv.write, hadv.incoming, hadv.whole, hadv.outgoing, hadv.unsent, hadv.room⟩
  simp only [DpiToplevel.negedge, heq, Bool.false_eq_true, if_false, Option.bind_eq_bind, Option.bind_some, hctl]
  cases hin : obj.mReadItem.valid && (!uartLike || DpiToplevel.armed uartLike obj.mReadItem.valid s.rcnt == 1) with
  | false =>
    rw [if_neg Bool.false_ne_true]
    exact ⟨_, _, held', pushed, rfl, hobj, hfree, hqueue, hmsg ▸ hitem, hmsg ▸ rfl, rfl, rfl, hin.symm, fun hv => absurd hv Bool.false_ne_true, hready⟩
  | true =>
    have hvalid : obj.mReadItem.valid = true := (Bool.and_eq_true_iff.mp hin).1
    rw [if_pos rfl, GlipTcp.readData, if_pos hvalid, Option.map_some, Option.bind_some]
    exact ⟨_, _, held', pushed, rfl, hobj, hfree, hqueue, hmsg ▸ hitem, hmsg ▸ rfl, rfl, rfl, hin.symm, fun _ => rfl, hready⟩

theorem posedge_eq (i : DpiCycle n) (h : s.fifoOutReady = true → s.obj.mWriteItem.valid = false) :
    s.posedge i = some { s with
      obj := { s.obj with
        mReadItem := if s.fifoInValid && i.fifoInReady then .reset else s.obj.mReadItem
        mWriteItem := if i.fifoOutValid && s.fifoOutReady then ⟨true, 0, i.fifoOutData.setWidth 64⟩ else s.obj.mWriteItem } } := by
  rw [DpiToplevel.posedge]
  cases hr : s.fifoInValid && i.fifoInReady <;> cases hw : i.fifoOutValid && s.fifoOutReady
  case true.true | false.true =>
    have hfree := h (Bool.and_eq_true_iff.mp hw).2
    simp [GlipTcp.writeData, GlipTcp.readAck, hfree]
  case true.false | false.false => rfl

theorem unsent_accepted (word : BitVec (8 * n)) (hn : n ≤ 8) : unsent n ⟨true, 0, word.setWidth 64⟩ = beBytes word := by
  have hle : 8 * n ≤ 64 := Nat.mul_le_mul_left 8 hn
  rw [unsent, if_pos rfl, List.drop_zero, BitVec.setWidth_setWidth_of_le _ hle, BitVec.setWidth_eq]

/-- A word that is delivered is the value of an item that holds its bytes. -/
def Grouped (P : TempStorage → List Byte → Prop) (n : Nat) (word : BitVec (8 * n)) (bytes : List Byte) : Prop :=
  bytes.length = n ∧ ∃ item, P item bytes ∧ word = item.value.setWidth (8 * n)

structure Carries (P : TempStorage → List Byte → Prop) (s s' : DpiToplevel n) (held held' : List Byte)
    (evs : List (DpiEvent n)) : Prop where
  carrying : Carrying P s' held'
  incoming : ∃ groups, List.Forall₂ (Grouped P n) (deliveries evs) groups ∧
    held ++ s.obj.mDataIn ++ arrivals evs = groups.flatten ++ (held' ++ s'.obj.mDataIn)
  outgoing : unsent n s.obj.mWriteItem ++ (accepts evs).flatMap beBytes =
    queuedBytes evs ++ unsent n s'.obj.mWriteItem

def drainTime (uartLike : Bool) (s : DpiToplevel n) (held : List Byte) : Nat :=
  if held.length + s.obj.mDataIn.length < n then 0
  else uartDelay * ((held.length + s.obj.mDataIn.length) / n) + DpiToplevel.armed uartLike true s.rcnt

theorem armed_le (available : Bool) {cnt : Nat} (h : cnt ≤ uartDelay) :
    DpiToplevel.armed uartLike available cnt ≤ uartDelay := by
  rw [DpiToplevel.armed]
  split
  · exact Nat.le_refl _
  · exact h

variable (uartLike) in
/-- The counter when a word is delivered, -/
theorem armed_of_delivered {cnt : Nat} (hcnt : cnt ≤ uartDelay)
    (h : (!uartLike || DpiToplevel.armed uartLike true cnt == 1) = true) :
    DpiToplevel.armed uartLike true (DpiToplevel.armed uartLike true cnt - 1) + 1 ≤
      uartDelay + DpiToplevel.armed uartLike true cnt := by
  cases uartLike with
  | false =>
    have hoff (c : Nat) : DpiToplevel.armed false true c = c := rfl
    rw [hoff, hoff]
    have hpos : 1 ≤ uartDelay := by decide
    omega
  | true =>
    have hone := eq_of_beq h
    rw [hone]
    exact Nat.le_refl _

variable (uartLike) in
/-- and when it has to wait. -/
theorem armed_of_waiting {cnt : Nat} (h : (!uartLike || DpiToplevel.armed uartLike true cnt == 1) = false) :
    DpiToplevel.armed uartLike true (DpiToplevel.armed uartLike true cnt - 1) + 1 ≤
      DpiToplevel.armed uartLike true cnt := by
  cases uartLike with
  | false => exact absurd h Bool.noConfusion
  | true =>
    have hne : DpiToplevel.armed true true cnt ≠ 1 := fun heq => by simp [heq] at h
    have hpos : DpiToplevel.armed true true cnt ≠ 0 := by
      rw [DpiToplevel.armed]
      by_cases hz : cnt = 0
      · subst hz
        decide
      · simp [hz]
    have hon {c : Nat} (hc : c ≠ 0) : DpiToplevel.armed true true c = c := by simp [DpiToplevel.armed, hc]
    rw [hon (by omega)]
    omega

structure Cycles (overshift : BitVec 32 → Nat → BitVec 32) (uartLike : Bool) (P : TempStorage → List Byte → Prop)
    (i : DpiCycle n) (s s' : DpiToplevel n) (held held' : List Byte) (evs : List (DpiEvent n)) : Prop
    extends Carries P s s' held held' evs where
  quiet : arrivals evs = []
  drains : i.fifoInReady = true → drainTime uartLike s' held' ≤ drainTime uartLike s held - 1
  flushes : s.obj.mDataOut.length + n ≤ dataCapacity → queuedBytes evs = unsent n s.obj.mWriteItem
  dataOut : s'.obj.mDataOut = s.obj.mDataOut ++ queuedBytes evs
  unsentQuiet : sentBytes evs = []
  controlQuiet : controlArrivals evs = []
  mControl : s'.obj.mControl = (s.obj.nextControl overshift).mControl
  mControlItem : s'.obj.mControlItem.value = (s.obj.nextControl overshift).mControlItem.value ∧
    s'.obj.mControlItem.mPartial = if (s.obj.nextControl overshift).mControlItem.valid then 0
      else (s.obj.nextControl overshift).mControlItem.mPartial
  shown : messages evs = if (s.obj.nextControl overshift).mControlItem.valid then
    [(s.obj.nextControl overshift).mControlItem.value.setWidth 32] else []
  logicRsts : logicRsts evs = (messages evs).countP (BitVec.getLsbD · 0)

section Seen
variable (message : Option (BitVec 32)) (s₁ : DpiToplevel n) (i : DpiCycle n)

theorem filterMap_seen {α : Type} (f : DpiEvent n → Option α) :
    (s.seen message s₁ i).filterMap f =
      (s₁.obj.mDataOut.drop s.obj.mDataOut.length).filterMap (fun b => f (.queued b)) ++
        (message.bind fun value => f (.message value)).toList ++
        (if s₁.logicRst then (f .logicRst).toList else []) ++
        (if s₁.fifoInValid && i.fifoInReady then (f (.delivered s₁.fifoInData)).toList else []) ++
        if i.fifoOutValid && s₁.fifoOutReady then (f (.accepted i.fifoOutData)).toList else [] := by
  have hite (b : Bool) (e : DpiEvent n) : (if b then [e] else []).filterMap f = if b then (f e).toList else [] := by
    cases b with
    | true => cases hf : f e <;> simp [hf]
    | false => rfl
  have hmsg : (message.map DpiEvent.message).toList.filterMap f = (message.bind fun value => f (.message value)).toList := by
    cases message with
    | none => rfl
    | some value => cases hf : f (.message value) <;> simp [hf]
  rw [DpiToplevel.seen, List.filterMap_append, List.filterMap_append, List.filterMap_append, List.filterMap_append,
    hite, hite, hite, hmsg, List.filterMap_map]
  rfl

theorem arrivals_seen : arrivals (s.seen message s₁ i) = [] := by
  rw [arrivals, filterMap_seen]
  simp

theorem controlArrivals_seen : controlArrivals (s.seen message s₁ i) = [] := by
  rw [controlArrivals, filterMap_seen]
  simp

theorem sentBytes_seen : sentBytes (s.seen message s₁ i) = [] := by
  rw [sentBytes, filterMap_seen]
  simp

theorem messages_seen : messages (s.seen message s₁ i) = message.toList := by
  rw [messages, filterMap_seen]
  simp

theorem logicRsts_seen : logicRsts (s.seen message s₁ i) = if s₁.logicRst then 1 else 0 := by
  rw [logicRsts, filterMap_seen]
  cases s₁.logicRst <;> simp

theorem deliveries_seen : deliveries (s.seen message s₁ i) =
    if s₁.fifoInValid && i.fifoInReady then [s₁.fifoInData] else [] := by
  rw [deliveries, filterMap_seen]
  simp

theorem accepts_seen : accepts (s.seen message s₁ i) =
    if i.fifoOutValid && s₁.fifoOutReady then [i.fifoOutData] else [] := by
  rw [accepts, filterMap_seen]
  simp

theorem queuedBytes_seen : queuedBytes (s.seen message s₁ i) = s₁.obj.mDataOut.drop s.obj.mDataOut.length := by
  rw [queuedBytes, filterMap_seen]
  simp

end Seen

/-- The word on `fifo_in` leaves, or the item stays as it is. -/
theorem Falls.delivers {message : Option (BitVec 32)} {s₁ : DpiToplevel n} {held₁ pushed : List Byte} (h : Falls overshift uartLike P s message s₁ held held₁ pushed)
    (hP : Preserved overshift n P) (hpos : 0 < n) (delivered : Bool) (hd : delivered = true → s₁.fifoInValid = true) :
    ∃ groups held', List.Forall₂ (Grouped P n) (if delivered then [s₁.fifoInData] else []) groups ∧
      held₁ = groups.flatten ++ held' ∧ held'.length = held₁.length - (if delivered then n else 0) ∧
      Reading P n (if delivered then .reset else s₁.obj.mReadItem) held' := by
  cases delivered with
  | true =>
    have hvalid := hd rfl
    have hread := h.obj.read
    have hwhole : held₁.length = n := by
      rw [h.inValid, hread.valid] at hvalid
      exact eq_of_beq (Bool.and_eq_true_iff.mp hvalid).1
    refine ⟨[held₁], [], .cons ⟨hwhole, _, hread.value, h.inData hvalid⟩ .nil, ?_, ?_, .reset hP hpos⟩
    · rw [List.flatten_singleton, List.append_nil]
    · rw [hwhole, if_pos rfl, Nat.sub_self, List.length_nil]
  | false => exact ⟨[], held₁, .nil, rfl, rfl, h.obj.read⟩

/-- A word is taken only when nothing is left of the one before it. -/
theorem Falls.accepts {message : Option (BitVec 32)} {s₁ : DpiToplevel n} {held₁ pushed : List Byte} (h : Falls overshift uartLike P s message s₁ held held₁ pushed)
    (hn : n ≤ 8) (word : BitVec (8 * n)) (accepted : Bool) (ha : accepted = true → s₁.fifoOutReady = true) :
    unsent n s₁.obj.mWriteItem ++ (if accepted then [word] else []).flatMap beBytes =
        unsent n (if accepted then ⟨true, 0, word.setWidth 64⟩ else s₁.obj.mWriteItem) ∧
      (if accepted then ⟨true, 0, word.setWidth 64⟩ else s₁.obj.mWriteItem : TempStorage).mPartial ≤ n := by
  cases accepted with
  | true =>
    have hnone : unsent n s₁.obj.mWriteItem = [] := by
      rw [unsent, h.outReady (ha rfl)]
      rfl
    rw [hnone, if_pos rfl, if_pos rfl, unsent_accepted word hn, List.nil_append, List.flatMap_singleton]
    exact ⟨rfl, Nat.zero_le n⟩
  | false => exact ⟨List.append_nil _, h.obj.write⟩

/-- A ready cycle is one cycle nearer to the end of the whole words. -/
theorem Falls.drains {message : Option (BitVec 32)} {s₁ s' : DpiToplevel n} {held₁ held' pushed : List Byte}
    (h : Falls overshift uartLike P s message s₁ held held₁ pushed) (hpos : 0 < n) (hrcnt : s.rcnt ≤ uartDelay)
    (hin : s'.obj.mDataIn = s₁.obj.mDataIn) (hcnt : s'.rcnt = s₁.rcnt)
    (hlen : held'.length = held₁.length - (if s₁.fifoInValid then n else 0)) :
    drainTime uartLike s' held' ≤ drainTime uartLike s held - 1 := by
  have htotal : held₁.length + s₁.obj.mDataIn.length = held.length + s.obj.mDataIn.length := by
    rw [← List.length_append, ← List.length_append, h.obj.incoming]
  have hle := h.obj.read.length
  rw [drainTime, drainTime, hin, hcnt, h.rcnt]
  by_cases hlt : held.length + s.obj.mDataIn.length < n
  · have hvalid : s₁.fifoInValid = false := by
      rw [h.inValid, h.obj.read.valid, beq_eq_false_iff_ne.mpr (by omega), Bool.false_and]
    rw [hlen, hvalid, if_neg Bool.false_ne_true, Nat.sub_zero, htotal, if_pos hlt]
    exact Nat.zero_le _
  · have hwhole : held₁.length = n := by
      rcases h.obj.whole with hwhole | hnil
      · exact hwhole
      · rw [hnil, List.length_nil, Nat.add_zero] at htotal
        omega
    have hvalid : s₁.obj.mReadItem.valid = true := by rw [h.obj.read.valid, beq_iff_eq, hwhole]
    have hinv := h.inValid
    rw [hvalid, Bool.true_and] at hinv
    rw [hvalid, if_neg hlt]
    cases hd : s₁.fifoInValid with
    | true =>
      -- a word goes, and the counter may start again
      have harm := armed_of_delivered uartLike hrcnt (hinv.symm.trans hd)
      have hdiv := Nat.div_eq_sub_div hpos (Nat.le_of_not_lt hlt)
      have htotal' : held'.length + s₁.obj.mDataIn.length = held.length + s.obj.mDataIn.length - n := by
        rw [hlen, hd, if_pos rfl]
        omega
      rw [htotal', hdiv, Nat.mul_add, Nat.mul_one]
      split
      · exact Nat.zero_le _
      · omega
    | false =>
      -- the counter goes down
      have harm := armed_of_waiting uartLike (hinv.symm.trans hd)
      rw [hlen, hd, if_neg Bool.false_ne_true, Nat.sub_zero, htotal, if_neg hlt]
      omega

variable (uartLike) in
/-- A cycle out of reset. -/
theorem cycle_carries (hP : Preserved overshift n P) (hpos : 0 < n) (hn : n ≤ 8) (h : Carrying P s held)
    (i : DpiCycle n) (hi : i.rst = false) :
    ∃ s' held' evs, s.cycle overshift uartLike i = some (s', evs) ∧ Cycles overshift uartLike P i s s' held held' evs := by
  obtain ⟨message, s₁, held₁, pushed, hneg, hfall⟩ := negedge_falls uartLike hP hn h
  obtain ⟨groups, held', hgroups, hheld, hlen, hread⟩ :=
    hfall.delivers hP hpos (s₁.fifoInValid && i.fifoInReady) fun hd => (Bool.and_eq_true_iff.mp hd).1
  obtain ⟨hout, hwrite⟩ :=
    hfall.accepts hn i.fifoOutData (i.fifoOutValid && s₁.fifoOutReady) fun ha => (Bool.and_eq_true_iff.mp ha).2
  have hqueued : queuedBytes (s.seen message s₁ i) = pushed := by
    rw [queuedBytes_seen, hfall.obj.outgoing, List.drop_left]
  have hrcnt : s₁.rcnt ≤ uartDelay := hfall.rcnt ▸ (Nat.sub_le _ 1).trans (armed_le _ h.rcnt)
  rw [DpiToplevel.cycle, hi, hneg, Option.bind_eq_bind, Option.bind_some]
  dsimp only
  rw [posedge_eq i hfall.outReady, Option.bind_eq_bind, Option.bind_some]
  refine ⟨_, held', _, rfl, ⟨⟨hfall.obj.connected, hfall.control, hread, hwrite, hrcnt⟩, ⟨groups, ?_, ?_⟩, ?_⟩,
    arrivals_seen _ _ _, ?_, ?_, hqueued.symm ▸ hfall.obj.outgoing, sentBytes_seen _ _ _, controlArrivals_seen _ _ _, hfall.mControl, hfall.mControlItem, ?_, ?_⟩
  · rw [deliveries_seen]
    exact hgroups
  · rw [arrivals_seen, List.append_nil, ← hfall.obj.incoming, hheld, List.append_assoc]
  · rw [accepts_seen, hqueued, hfall.obj.unsent, List.append_assoc, hout]
  · intro hready
    rw [hready, Bool.and_true] at hlen
    exact hfall.drains hpos h.rcnt rfl rfl hlen
  · intro hroom
    rw [hqueued, hfall.obj.unsent, unsent, hfall.obj.room hroom]
    exact (List.append_nil pushed).symm
  · rw [messages_seen, hfall.shown]
    split <;> rfl
  · rw [messages_seen, logicRsts_seen, hfall.logicRst]
    cases message with
    | none => rfl
    | some value => cases hbit : value.getLsbD 0 <;> simp [hbit]

/-- A step of a connection: out of reset, and no write of the thread takes a part. -/
def Undisturbed : DpiStep n → Prop
  | .cycle i => i.rst = false
  | .send (.part _) => False
  | _ => True

theorem send_undisturbed (obj : GlipTcp n) (r : WriteResult) (h : Undisturbed (n := n) (.send r)) :
    obj.send r = some { obj with mDataOut := obj.mDataOut.drop 4096 } := by
  rw [GlipTcp.send]
  cases r with
  | all => exact if_pos (.inr rfl)
  | part k => exact h.elim
  | eagain => exact if_pos (.inl rfl)

theorem Carries.refl (h : Carrying P s held) : Carries P s s held held [] :=
  ⟨h, ⟨[], .nil, List.append_nil _⟩, List.append_nil _⟩

theorem Carries.trans {s' s'' : DpiToplevel n} {held' held'' : List Byte} {evs evs' : List (DpiEvent n)}
    (h : Carries P s s' held held' evs) (h' : Carries P s' s'' held' held'' evs') :
    Carries P s s'' held held'' (evs ++ evs') := by
  obtain ⟨groups, hg, hin⟩ := h.incoming
  obtain ⟨groups', hg', hin'⟩ := h'.incoming
  refine ⟨h'.carrying, ⟨groups ++ groups', ?_, ?_⟩, ?_⟩
  · rw [deliveries, List.filterMap_append]
    exact List.rel_append hg hg'
  · rw [arrivals, List.filterMap_append, ← List.append_assoc, ← arrivals, hin, List.append_assoc, ← arrivals, hin',
      List.flatten_append, List.append_assoc]
  · rw [accepts, List.filterMap_append, List.flatMap_append, ← List.append_assoc, ← accepts, h.outgoing,
      List.append_assoc, ← accepts, h'.outgoing, queuedBytes, queuedBytes, queuedBytes, List.filterMap_append,
      List.append_assoc]

/-- Bytes that the socket takes are no event of the other kinds. -/
theorem filterMap_sent {β : Type} (bytes : List Byte) (f : DpiEvent n → Option β) (hf : ∀ b, f (.sent b) = none) :
    (bytes.map DpiEvent.sent).filterMap f = [] := by
  rw [List.filterMap_map]
  exact List.filterMap_eq_nil_iff.mpr fun b _ => hf b

variable (uartLike) in
/-- Every step of a connection carries the bytes on; no assertion fails. -/
theorem step_carries (hP : Preserved overshift n P) (hpos : 0 < n) (hn : n ≤ 8) (h : Carrying P s held)
    (e : DpiStep n) (he : Undisturbed e) :
    ∃ s' held' evs, s.step overshift uartLike e = some (s', evs) ∧ Carries P s s' held held' evs := by
  cases e with
  | data b =>
    refine ⟨_, held, _, rfl, ?_⟩
    rw [GlipTcp.receiveData]
    by_cases hroom : s.obj.mDataIn.length < dataCapacity
    · rw [if_pos hroom, if_pos hroom]
      exact ⟨⟨h.connected, h.control, h.read, h.write, h.rcnt⟩, ⟨[], .nil, List.append_assoc held s.obj.mDataIn [b]⟩,
        List.append_nil _⟩
    · rw [if_neg hroom, if_neg hroom]
      exact .refl h
  | control b =>
    refine ⟨_, held, _, rfl, ?_⟩
    rw [GlipTcp.receiveControl]
    by_cases hroom : s.obj.mControl.length < controlCapacity
    · rw [if_pos hroom, if_pos hroom]
      exact ⟨⟨h.connected, h.control, h.read, h.write, h.rcnt⟩, ⟨[], .nil, List.append_nil _⟩, List.append_nil _⟩
    · rw [if_neg hroom, if_neg hroom]
      exact .refl h
  | send r =>
    rw [DpiToplevel.step, send_undisturbed s.obj r he]
    refine ⟨_, held, _, rfl, ⟨h.connected, h.control, h.read, h.write, h.rcnt⟩, ⟨[], ?_, ?_⟩, ?_⟩
    · rw [deliveries, filterMap_sent _ _ fun _ => rfl]
      exact .nil
    · rw [arrivals, filterMap_sent _ _ fun _ => rfl]
      exact List.append_nil _
    · rw [accepts, queuedBytes, filterMap_sent _ _ fun _ => rfl, filterMap_sent _ _ fun _ => rfl]
      exact List.append_nil _
  | cycle i =>
    obtain ⟨s', held', evs, hcycle, h'⟩ := cycle_carries uartLike hP hpos hn h i he
    exact ⟨s', held', evs, hcycle, h'.toCarries⟩

variable (uartLike) in
/-- The whole run. -/
theorem run_carries (hP : Preserved overshift n P) (hpos : 0 < n) (hn : n ≤ 8) (steps : List (DpiStep n))
    (hsteps : ∀ e ∈ steps, Undisturbed e) (h : Carrying P s held) :
    ∃ s' held', (dpiRun n overshift uartLike).after (some s) steps = some s' ∧
      Carries P s s' held held' (eventsOf n overshift uartLike s steps) := by
  induction steps generalizing s held with
  | nil => exact ⟨s, held, rfl, .refl h⟩
  | cons e steps ih =>
    obtain ⟨s₁, held₁, evs, hstep, hcar⟩ := step_carries uartLike hP hpos hn h e (hsteps e (.head steps))
    obtain ⟨s', held', hafter, hrun⟩ := ih (fun e' he' => hsteps e' (.tail e he')) hcar.carrying
    rw [after_cons_step hstep, eventsOf_cons_step hstep]
    exact ⟨s', held', hafter, hcar.trans hrun⟩

end Cycle
end Glip.Tcp
