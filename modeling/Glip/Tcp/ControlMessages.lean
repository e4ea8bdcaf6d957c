import Mathlib.Data.List.Chain
import Glip.Tcp.DataWidths

/-! The words on the control connection and the messages that come out of them. -/
namespace Glip.Tcp
open Foundation
variable {n : Nat} {overshift : BitVec 32 → Nat → BitVec 32} {uartLike : Bool}

def ctrlMsgBytes (word : BitVec 16) : List Byte := [word.extractLsb' 0 8, word.extractLsb' 8 8]

def ctrlMsgLogicReset : BitVec 16 := 0x0001

def pack : List Byte → BitVec 16
  | [] => 0#16
  | [b] => b.setWidth 16 <<< 8
  | b :: b' :: _ => b.setWidth 16 <<< 8 ||| b'.setWidth 16

def byteSwap (word : BitVec 16) : BitVec 16 := pack (ctrlMsgBytes word)

def decoded : BitVec 16 → List (BitVec 16) → List (BitVec 16)
  | _, [] => []
  | v, word :: words => (v ||| byteSwap word) :: decoded (v ||| byteSwap word) words

def residue (v : BitVec 16) (words : List (BitVec 16)) : BitVec 16 := words.foldl (fun v word => v ||| byteSwap word) v

theorem decoded_append (v : BitVec 16) (words words' : List (BitVec 16)) :
    decoded v (words ++ words') = decoded v words ++ decoded (residue v words) words' := by
  induction words generalizing v with
  | nil => rfl
  | cons word words ih =>
    rw [List.cons_append, decoded, decoded, ih]
    rfl

theorem residue_append (v : BitVec 16) (words words' : List (BitVec 16)) :
    residue v (words ++ words') = residue (residue v words) words' := List.foldl_append

section Bits

theorem getLsbD_pack (b b' : Byte) (t : Nat) :
    (pack [b, b']).getLsbD t = if t < 8 then b'.getLsbD t else b.getLsbD (t - 8) := by
  rw [pack, BitVec.getLsbD_or, BitVec.getLsbD_shiftLeft, BitVec.getLsbD_setWidth, BitVec.getLsbD_setWidth]
  by_cases h : t < 8
  · have h16 : t < 16 := Nat.lt_trans h (by decide)
    simp [h, h16]
  · have hge : b'.getLsbD t = false := BitVec.getLsbD_of_ge _ _ (Nat.le_of_not_lt h)
    by_cases h16 : t < 16
    · have h8 : t - 8 < 16 := by omega
      simp [h, h16, h8, hge]
    · have hout : b.getLsbD (t - 8) = false := BitVec.getLsbD_of_ge _ _ (by omega)
      simp [h, hge, hout]

theorem getLsbD_byteSwap (word : BitVec 16) {t : Nat} (ht : t < 16) :
    (byteSwap word).getLsbD t = word.getLsbD (if t < 8 then t + 8 else t - 8) := by
  rw [byteSwap, ctrlMsgBytes, getLsbD_pack]
  split
  · rename_i h
    rw [BitVec.getLsbD_extractLsb', decide_eq_true h, Bool.true_and, Nat.add_comm]
  · rename_i h
    have h8 : t - 8 < 8 := by omega
    rw [BitVec.getLsbD_extractLsb', decide_eq_true h8, Bool.true_and, Nat.zero_add]

/-- A byte that is shifted by a byte or not at all keeps the sign of an `int` clear. -/
theorem signExtend_shlInt (data : Byte) {k : Nat} (hk : k ≤ 8) :
    (shlInt overshift data k).signExtend 64 = (data.setWidth 16 <<< k).setWidth 64 := by
  have hmsb : (data.setWidth 32 <<< k).msb = false := by
    rw [BitVec.msb_eq_getLsbD_last, BitVec.getLsbD_shiftLeft, BitVec.getLsbD_setWidth,
      BitVec.getLsbD_of_ge data _ (by omega), Bool.and_false, Bool.and_false]
  rw [shlInt, if_pos (by omega), BitVec.signExtend_eq_setWidth_of_msb_false hmsb]
  apply BitVec.eq_of_getLsbD_eq
  intro p hp
  rw [BitVec.getLsbD_setWidth, BitVec.getLsbD_setWidth, BitVec.getLsbD_shiftLeft, BitVec.getLsbD_shiftLeft,
    BitVec.getLsbD_setWidth, BitVec.getLsbD_setWidth]
  by_cases hbyte : p - k < 8
  · have h16 : p < 16 := by omega
    have h32 : p < 32 := by omega
    have hsub : p - k < 16 := by omega
    have hsub' : p - k < 32 := by omega
    simp [h16, h32, hsub, hsub']
  · have hout : data.getLsbD (p - k) = false := BitVec.getLsbD_of_ge _ _ (Nat.le_of_not_lt hbyte)
    simp [hout]

/-- What a byte more makes of the value of the item. -/
theorem composing_add (v : BitVec 16) {item : TempStorage} {held : List Byte} (data : Byte)
    (hvalue : item.value = (v ||| pack held).setWidth 64) (hp : item.mPartial = held.length) (hlen : held.length < 2) :
    (item.add overshift 2 data).value = (v ||| pack (held ++ [data])).setWidth 64 := by
  have hk : (2 - held.length - 1) * 8 ≤ 8 := by omega
  have hpack : pack (held ++ [data]) = pack held ||| data.setWidth 16 <<< ((2 - held.length - 1) * 8) := by
    match held with
    | [] => exact BitVec.zero_or.symm
    | [b] =>
      have hzero : (2 - [b].length - 1) * 8 = 0 := rfl
      rw [hzero, BitVec.shiftLeft_zero]
      rfl
  rw [TempStorage.add, hvalue, hp, signExtend_shlInt data hk, ← BitVec.setWidth_or, BitVec.or_assoc, hpack]

end Bits

structure Composing (s : DpiToplevel n) (v : BitVec 16) (held : List Byte) : Prop where
  mPartial : s.obj.mControlItem.mPartial = held.length
  length : held.length < 2
  value : s.obj.mControlItem.value = (v ||| pack held).setWidth 64

structure Composes (s s' : DpiToplevel n) (v v' : BitVec 16) (held held' : List Byte) (evs : List (DpiEvent n)) : Prop where
  composing : Composing s' v' held'
  consumed : ∃ words, held ++ s.obj.mControl ++ controlArrivals evs = words.flatMap ctrlMsgBytes ++ (held' ++ s'.obj.mControl) ∧
    messages evs = (decoded v words).map (BitVec.setWidth 32) ∧
    logicRsts evs = (decoded v words).countP (BitVec.getLsbD · 0) ∧ v' = residue v words

section Steps
variable {s s' s'' : DpiToplevel n} {v v' v'' : BitVec 16} {held held' held'' : List Byte} {evs evs' : List (DpiEvent n)}

theorem Composes.refl (h : Composing s v held) : Composes s s v v held held [] :=
  ⟨h, [], List.append_nil _, rfl, rfl, rfl⟩

theorem Composes.trans (h : Composes s s' v v' held held' evs) (h' : Composes s' s'' v' v'' held' held'' evs') :
    Composes s s'' v v'' held held'' (evs ++ evs') := by
  obtain ⟨words, hin, hmsg, hrst, rfl⟩ := h.consumed
  obtain ⟨words', hin', hmsg', hrst', rfl⟩ := h'.consumed
  refine ⟨h'.composing, words ++ words', ?_, ?_, ?_, (residue_append _ _ _).symm⟩
  · rw [controlArrivals, List.filterMap_append, ← List.append_assoc, ← controlArrivals, hin, List.append_assoc,
      ← controlArrivals, hin', List.flatMap_append, List.append_assoc]
  · rw [messages, List.filterMap_append, ← messages, ← messages, hmsg, hmsg', decoded_append, List.map_append]
  · rw [logicRsts, List.filterMap_append, List.length_append, ← logicRsts, ← logicRsts, hrst, hrst', decoded_append,
      List.countP_append]

/-- The two bytes of a word, from two bytes. -/
theorem ctrlMsgBytes_append (b b' : Byte) : ctrlMsgBytes (b' ++ b) = [b, b'] := by
  have hlow : (b' ++ b).extractLsb' 0 8 = b := by
    apply BitVec.eq_of_getLsbD_eq
    intro t ht
    rw [BitVec.getLsbD_extractLsb', BitVec.getLsbD_append, Nat.zero_add, if_pos ht, decide_eq_true ht, Bool.true_and]
  have hhigh : (b' ++ b).extractLsb' 8 8 = b' := by
    apply BitVec.eq_of_getLsbD_eq
    intro t ht
    have hge : ¬ 8 + t < 8 := Nat.not_lt.mpr (Nat.le_add_right 8 t)
    rw [BitVec.getLsbD_extractLsb', BitVec.getLsbD_append, if_neg hge, decide_eq_true ht, Bool.true_and,
      Nat.add_sub_cancel_left]
  rw [ctrlMsgBytes, hlow, hhigh]

variable (overshift) in
/-- What the loop makes of the item of the message. -/
theorem nextControl_composing (h : Composing s v held) :
    (s.obj.nextControl overshift).mControlItem.value = (v ||| pack (filled 2 held s.obj.mControl)).setWidth 64 ∧
      (s.obj.nextControl overshift).mControlItem.mPartial = (filled 2 held s.obj.mControl).length ∧
      (s.obj.nextControl overshift).mControlItem.valid = ((filled 2 held s.obj.mControl).length == 2) ∧
      (s.obj.nextControl overshift).mControl = s.obj.mControl.drop (2 - held.length) := by
  obtain ⟨hvalue, hp, hq⟩ := popItem_fills overshift (n := 2)
    (P := fun item held => item.value = (v ||| pack held).setWidth 64)
    (fun _ _ data hvalue hp hlen => composing_add v data hvalue hp hlen) s.obj.mControl h.value h.mPartial h.length.le
  exact ⟨hvalue, hp, congrArg (· == 2) hp, hq⟩

/-- A cycle takes a word off the bytes when there are two. -/
theorem Cycles.composes {P : TempStorage → List Byte → Prop} {i : DpiCycle n} {bytes bytes' : List Byte}
    (h : Cycles overshift uartLike P i s s' bytes bytes' evs) (hc : Composing s v held) :
    ∃ v' held', Composes s s' v v' held held' evs := by
  obtain ⟨hvalue, hp, hvalid, hq⟩ := nextControl_composing overshift hc
  obtain ⟨hval', hpart'⟩ := h.mControlItem
  have hshown := h.shown
  have hin := filled_append (n := 2) held s.obj.mControl
  have hle := length_filled_le (n := 2) hc.length.le s.obj.mControl
  rw [hvalue] at hval'
  rw [hvalid, hp] at hpart'
  rw [hvalid, hvalue, BitVec.setWidth_setWidth_of_le _ (by decide)] at hshown
  rw [← hq, ← h.mControl] at hin
  generalize filled 2 held s.obj.mControl = bytes at hin hle hval' hpart' hshown
  match bytes with
  | [] =>
    exact ⟨v, [], ⟨hpart', Nat.zero_lt_two, hval'⟩, [], by rw [h.controlQuiet, List.append_nil, ← hin]; rfl, hshown,
      by rw [h.logicRsts, hshown]; rfl, rfl⟩
  | [b] =>
    exact ⟨v, [b], ⟨hpart', Nat.one_lt_two, hval'⟩, [], by rw [h.controlQuiet, List.append_nil, ← hin]; rfl, hshown,
      by rw [h.logicRsts, hshown]; rfl, rfl⟩
  | [b, b'] =>
    have hword : byteSwap (b' ++ b) = pack [b, b'] := by rw [byteSwap, ctrlMsgBytes_append]
    refine ⟨v ||| pack [b, b'], [], ⟨hpart', Nat.zero_lt_two, ?_⟩, [b' ++ b], ?_, ?_, ?_, ?_⟩
    · rw [hval', pack, BitVec.or_zero]
    · rw [h.controlQuiet, List.append_nil, List.flatMap_singleton, ctrlMsgBytes_append, ← hin]
      rfl
    · rw [hshown, decoded, hword]
      rfl
    · have hbit (word : BitVec 16) : (word.setWidth 32).getLsbD 0 = word.getLsbD 0 := by
        rw [BitVec.getLsbD_setWidth]
        rfl
      rw [h.logicRsts, hshown, decoded, hword]
      exact (List.countP_singleton ..).trans (by rw [hbit]; exact (List.countP_singleton ..).symm)
    · rw [residue, List.foldl_cons, hword]
      rfl

/-- A step that leaves the control connection alone. -/
theorem composes_of_quiet (hc : Composing s v held) (hitem : s'.obj.mControlItem = s.obj.mControlItem)
    (hqueue : s'.obj.mControl = s.obj.mControl ++ controlArrivals evs) (hmsg : messages evs = [])
    (hrst : logicRsts evs = 0) : Composes s s' v v held held evs := by
  refine ⟨⟨?_, hc.length, ?_⟩, [], ?_, hmsg, hrst, rfl⟩
  · rw [hitem]
    exact hc.mPartial
  · rw [hitem]
    exact hc.value
  · rw [hqueue, List.append_assoc]
    rfl

variable (uartLike) in
theorem step_composes {P : TempStorage → List Byte → Prop} {bytes : List Byte} (hP : Preserved overshift n P)
    (hpos : 0 < n) (hn : n ≤ 8) (h : Carrying P s bytes) (hc : Composing s v held) (e : DpiStep n) (he : Undisturbed e) :
    ∃ s' bytes' v' held' evs, s.step overshift uartLike e = some (s', evs) ∧ Carrying P s' bytes' ∧
      Composes s s' v v' held held' evs := by
  cases e with
  | cycle i =>
    obtain ⟨s', bytes', evs, hcycle, h'⟩ := cycle_carries uartLike hP hpos hn h i he
    obtain ⟨v', held', hcomp⟩ := h'.composes hc
    exact ⟨s', bytes', v', held', evs, hcycle, h'.carrying, hcomp⟩
  | data b =>
    obtain ⟨s', bytes', evs, hstep, h'⟩ := step_carries uartLike hP hpos hn h (.data b) he
    refine ⟨s', bytes', v, held, evs, hstep, h'.carrying, ?_⟩
    cases hstep
    rw [GlipTcp.receiveData]
    by_cases hroom : s.obj.mDataIn.length < dataCapacity
    · rw [if_pos hroom, if_pos hroom]
      exact composes_of_quiet hc rfl (List.append_nil _).symm rfl rfl
    · rw [if_neg hroom, if_neg hroom]
      exact .refl hc
  | control b =>
    obtain ⟨s', bytes', evs, hstep, h'⟩ := step_carries uartLike hP hpos hn h (.control b) he
    refine ⟨s', bytes', v, held, evs, hstep, h'.carrying, ?_⟩
    cases hstep
    rw [GlipTcp.receiveControl]
    by_cases hroom : s.obj.mControl.length < controlCapacity
    · rw [if_pos hroom, if_pos hroom]
      exact composes_of_quiet hc rfl rfl rfl rfl
    · rw [if_neg hroom, if_neg hroom]
      exact .refl hc
  | send r =>
    obtain ⟨s', bytes', evs, hstep, h'⟩ := step_carries uartLike hP hpos hn h (.send r) he
    refine ⟨s', bytes', v, held, evs, hstep, h'.carrying, ?_⟩
    rw [DpiToplevel.step, send_undisturbed s.obj r he] at hstep
    cases hstep
    refine composes_of_quiet hc rfl ?_ (filterMap_sent _ _ fun _ => rfl) ?_
    · rw [controlArrivals, filterMap_sent _ _ fun _ => rfl]
      exact (List.append_nil _).symm
    · rw [logicRsts, filterMap_sent _ _ fun _ => rfl]
      rfl

variable (uartLike) in
/-- The whole run. -/
theorem run_composes {P : TempStorage → List Byte → Prop} {bytes : List Byte} (hP : Preserved overshift n P)
    (hpos : 0 < n) (hn : n ≤ 8) (steps : List (DpiStep n)) (hsteps : ∀ e ∈ steps, Undisturbed e) (h : Carrying P s bytes)
    (hc : Composing s v held) :
    ∃ s' bytes' v' held', (dpiRun n overshift uartLike).after (some s) steps = some s' ∧ Carrying P s' bytes' ∧
      Composes s s' v v' held held' (eventsOf n overshift uartLike s steps) := by
  induction steps generalizing s bytes v held with
  | nil => exact ⟨s, bytes, v, held, rfl, h, .refl hc⟩
  | cons e steps ih =>
    obtain ⟨s₁, bytes₁, v₁, held₁, evs, hstep, h₁, hcomp⟩ :=
      step_composes uartLike hP hpos hn h hc e (hsteps e (.head steps))
    obtain ⟨s', bytes', v', held', hafter, h', hrest⟩ :=
      ih (fun e' he' => hsteps e' (.tail e he')) h₁ hcomp.composing
    rw [after_cons_step hstep, eventsOf_cons_step hstep]
    exact ⟨s', bytes', v', held', hafter, h', hcomp.trans hrest⟩

variable (uartLike) in
/-- Cycles empty the queue of the control connection. -/
theorem cycles_compose {P : TempStorage → List Byte → Prop} {bytes : List Byte} (hP : Preserved overshift n P)
    (hpos : 0 < n) (hn : n ≤ 8) (cycles : List (DpiCycle n)) (hcycles : ∀ i ∈ cycles, i.rst = false)
    (h : Carrying P s bytes) (hc : Composing s v held) :
    ∃ s' v' held', Composes s s' v v' held held' (eventsOf n overshift uartLike s (cycles.map .cycle)) ∧
      controlArrivals (eventsOf n overshift uartLike s (cycles.map .cycle)) = [] ∧
      s'.obj.mControl.length ≤ s.obj.mControl.length - cycles.length := by
  induction cycles generalizing s bytes v held with
  | nil => exact ⟨s, v, held, .refl hc, rfl, Nat.le_refl _⟩
  | cons i cycles ih =>
    obtain ⟨s₁, bytes₁, evs, hcycle, h₁⟩ :=
      cycle_carries uartLike hP hpos hn h i (hcycles i (.head cycles))
    have hstep : s.step overshift uartLike (.cycle i) = some (s₁, evs) := hcycle
    obtain ⟨v₁, held₁, hcomp⟩ := h₁.composes hc
    obtain ⟨s', v', held', hrest, hquiet, hlen⟩ := ih (fun j hj => hcycles j (.tail i hj)) h₁.carrying hcomp.composing
    have hone : s₁.obj.mControl.length ≤ s.obj.mControl.length - 1 := by
      have hheld := hc.length
      rw [h₁.mControl, (nextControl_composing overshift hc).2.2.2, List.length_drop]
      omega
    rw [List.map_cons, eventsOf_cons_step hstep]
    refine ⟨s', v', held', hcomp.trans hrest, ?_, ?_⟩
    · rw [controlArrivals, List.filterMap_append, ← controlArrivals, ← controlArrivals, h₁.controlQuiet, hquiet]
      rfl
    · rw [List.length_cons]
      omega

end Steps

section Words

/-- A word that is read with its bytes swapped, over what was there. -/
theorem or_byteSwap_eq_iff (v word : BitVec 16) : v ||| byteSwap word = word ↔ byteSwap word = word ∧ v ||| word = word := by
  constructor
  · intro h
    have hsub {t : Nat} (ht : t < 16) (hbit : word.getLsbD (if t < 8 then t + 8 else t - 8) = true) : word.getLsbD t = true := by
      rw [← h, BitVec.getLsbD_or, getLsbD_byteSwap word ht, hbit, Bool.or_true]
    have hswap : byteSwap word = word := by
      apply BitVec.eq_of_getLsbD_eq
      intro t ht
      rw [getLsbD_byteSwap word ht]
      apply Bool.eq_iff_iff.mpr
      constructor
      · exact hsub ht
      · intro hbit
        apply hsub
        · split <;> omega
        · rw [← hbit]
          congr 1
          split <;> split <;> omega
    rw [hswap] at h
    exact ⟨hswap, h⟩
  · rintro ⟨hswap, h⟩
    rwa [hswap]

theorem decoded_eq_iff (v : BitVec 16) (words : List (BitVec 16)) :
    decoded v words = words ↔
      (∀ word ∈ words, byteSwap word = word) ∧ (v :: words).IsChain fun v word => v ||| word = word := by
  induction words generalizing v with
  | nil => simp [decoded]
  | cons word words ih =>
    rw [decoded, List.cons.injEq, List.isChain_cons_cons, List.forall_mem_cons, or_byteSwap_eq_iff]
    constructor
    · rintro ⟨⟨hswap, hor⟩, hrest⟩
      rw [hswap, hor] at hrest
      obtain ⟨hall, hchain⟩ := (ih word).mp hrest
      exact ⟨⟨hswap, hall⟩, hor, hchain⟩
    · rintro ⟨⟨hswap, hall⟩, hor, hchain⟩
      refine ⟨⟨hswap, hor⟩, ?_⟩
      rw [hswap, hor]
      exact (ih word).mpr ⟨hall, hchain⟩

/-- The words whose bytes can be read in both orders, each with all the bits of the one before it
and without the bit of a reset. -/
def Unmistakable (words : List (BitVec 16)) : Prop :=
  (∀ word ∈ words, byteSwap word = word ∧ word.getLsbD 0 = false) ∧ words.IsChain fun v word => v ||| word = word

theorem messages_right_iff (words : List (BitVec 16)) :
    (decoded 0 words = words ∧ (decoded 0 words).countP (BitVec.getLsbD · 0) = words.count ctrlMsgLogicReset) ↔
      Unmistakable words := by
  -- the reset itself is not among the words that are read right
  have hnone (hswap : ∀ word ∈ words, byteSwap word = word) : words.count ctrlMsgLogicReset = 0 :=
    List.count_eq_zero.mpr fun hmem => absurd (hswap _ hmem) (by decide)
  constructor
  · rintro ⟨heq, hcount⟩
    obtain ⟨hswap, hchain⟩ := (decoded_eq_iff 0 words).mp heq
    rw [heq, hnone hswap, List.countP_eq_zero] at hcount
    exact ⟨fun word hword => ⟨hswap word hword, Bool.eq_false_iff.mpr (hcount word hword)⟩, hchain.tail⟩
  · rintro ⟨hall, hchain⟩
    have hswap : ∀ word ∈ words, byteSwap word = word := fun word hword => (hall word hword).1
    have heq : decoded 0 words = words :=
      (decoded_eq_iff 0 words).mpr ⟨hswap, List.isChain_cons.mpr ⟨fun _ _ => BitVec.zero_or, hchain⟩⟩
    rw [heq, hnone hswap, List.countP_eq_zero]
    exact ⟨rfl, fun word hword => Bool.eq_false_iff.mp (hall word hword).2⟩

/-- The bytes of a word tell it from the others. -/
theorem ctrlMsgBytes_inj {word word' : BitVec 16} {rest rest' : List Byte}
    (h : ctrlMsgBytes word ++ rest = ctrlMsgBytes word' ++ rest') : word = word' ∧ rest = rest' := by
  obtain ⟨hlow, hhigh, hrest⟩ : word.extractLsb' 0 8 = word'.extractLsb' 0 8 ∧
      word.extractLsb' 8 8 = word'.extractLsb' 8 8 ∧ rest = rest' := by
    simpa [ctrlMsgBytes] using h
  refine ⟨?_, hrest⟩
  apply BitVec.eq_of_getLsbD_eq
  intro t ht
  by_cases h8 : t < 8
  · have hbit := congrArg (BitVec.getLsbD · t) hlow
    simpa [BitVec.getLsbD_extractLsb', h8] using hbit
  · have hbit := congrArg (BitVec.getLsbD · (t - 8)) hhigh
    have hlt : t - 8 < 8 := by omega
    have hadd : 8 + (t - 8) = t := by omega
    simpa [BitVec.getLsbD_extractLsb', hlt, hadd] using hbit

/-- Words that give the same bytes, up to a byte that is left over, are the same. -/
theorem words_eq_of_bytes {words words' : List (BitVec 16)} {held : List Byte} (hheld : held.length < 2)
    (h : words.flatMap ctrlMsgBytes = words'.flatMap ctrlMsgBytes ++ held) : words = words' := by
  induction words generalizing words' with
  | nil =>
    cases words' with
    | nil => rfl
    | cons word' words' => exact absurd h (by simp [ctrlMsgBytes])
  | cons word words ih =>
    cases words' with
    | nil =>
      have hlen := congrArg List.length h
      simp only [List.flatMap_cons, List.flatMap_nil, List.length_append, ctrlMsgBytes, List.length_cons, List.length_nil] at hlen
      omega
    | cons word' words' =>
      rw [List.flatMap_cons, List.flatMap_cons, List.append_assoc] at h
      obtain ⟨rfl, hrest⟩ := ctrlMsgBytes_inj h
      rw [ih hrest]

theorem length_flatMap_ctrlMsgBytes (words : List (BitVec 16)) : (words.flatMap ctrlMsgBytes).length = 2 * words.length := by
  induction words with
  | nil => rfl
  | cons word words ih =>
    rw [List.flatMap_cons, List.length_append, ih, List.length_cons, Nat.mul_succ, Nat.add_comm]
    rfl

end Words

theorem DpiToplevel.Connected.composing {s : DpiToplevel n} (h : s.Connected) : Composing s 0 [] := by
  have hobj := h.obj
  refine ⟨?_, Nat.zero_lt_two, ?_⟩
  · rw [hobj]
    rfl
  · rw [hobj]
    rfl

/-- Once all the bytes are read, there is one message for each word; they are the words, and the resets
are those that were sent, exactly for unmistakable words. -/
theorem control_words_iff (hpos : 0 < n) (hn : n ≤ 8) (overshift : BitVec 32 → Nat → BitVec 32) (uartLike : Bool)
    (s : DpiToplevel n) (hs : s.Connected) (steps : List (DpiStep n)) (hsteps : ∀ e ∈ steps, Undisturbed e)
    (words : List (BitVec 16)) (harr : controlArrivals (eventsOf n overshift uartLike s steps) = words.flatMap ctrlMsgBytes)
    (cycles : List (DpiCycle n)) (hcycles : ∀ i ∈ cycles, i.rst = false) (hlen : 2 * words.length ≤ cycles.length) :
    (messages (eventsOf n overshift uartLike s (steps ++ cycles.map .cycle)) = words.map (BitVec.setWidth 32) ∧
        logicRsts (eventsOf n overshift uartLike s (steps ++ cycles.map .cycle)) = words.count ctrlMsgLogicReset) ↔
      Unmistakable words := by
  have hP : Preserved overshift n fun item _ => SignBits item := signBits_preserved
  obtain ⟨s₁, bytes, v₁, held₁, hafter, hcar, hcomp⟩ :=
    run_composes uartLike hP hpos hn steps hsteps (hs.carrying hP hpos) hs.composing
  obtain ⟨s₂, v₂, held₂, hcomp₂, hquiet, hempty⟩ :=
    cycles_compose uartLike hP hpos hn cycles hcycles hcar hcomp.composing
  obtain ⟨words₁, hin₁, _⟩ := hcomp.consumed
  obtain ⟨words', hin, hmsg, hrst, _⟩ := (hcomp.trans hcomp₂).consumed
  rw [hs.obj] at hin₁ hin
  change controlArrivals (eventsOf n overshift uartLike s steps) = words₁.flatMap ctrlMsgBytes ++ (held₁ ++ s₁.obj.mControl) at hin₁
  have hqueue : s₂.obj.mControl = [] := by
    have hbytes := congrArg List.length hin₁
    rw [harr, length_flatMap_ctrlMsgBytes, List.length_append, List.length_append] at hbytes
    apply List.eq_nil_of_length_eq_zero
    omega
  have hwords : words = words' := by
    apply words_eq_of_bytes hcomp₂.composing.length
    rw [controlArrivals, List.filterMap_append, ← controlArrivals, ← controlArrivals, hquiet, harr, hqueue,
      List.append_nil, List.append_nil] at hin
    exact hin
  have hinj : Function.Injective (BitVec.setWidth 32 : BitVec 16 → BitVec 32) := by
    intro a b hab
    have hback := congrArg (BitVec.setWidth 16) hab
    rwa [BitVec.setWidth_setWidth_of_le _ (by decide), BitVec.setWidth_setWidth_of_le _ (by decide), BitVec.setWidth_eq,
      BitVec.setWidth_eq] at hback
  rw [eventsOf_append _ hafter, hmsg, hrst, ← hwords, (List.map_injective_iff.mpr hinj).eq_iff]
  exact messages_right_iff words

def twiceRun : List (DpiStep 2) := [.control 2, .cycle ⟨false, false, false, 0⟩, .control 2]

theorem control_words_twice :
    messages (eventsOf 2 (fun x k => x <<< (k % 32)) false (start 2)
        (twiceRun ++ [⟨false, false, false, 0⟩, ⟨false, false, false, 0⟩].map .cycle)) =
          [(0x0202 : BitVec 16)].map (BitVec.setWidth 32) ∧
      logicRsts (eventsOf 2 (fun x k => x <<< (k % 32)) false (start 2)
        (twiceRun ++ [⟨false, false, false, 0⟩, ⟨false, false, false, 0⟩].map .cycle)) =
          [(0x0202 : BitVec 16)].count ctrlMsgLogicReset := by
  have harr : controlArrivals (eventsOf 2 (fun x k => x <<< (k % 32)) false (start 2) twiceRun) =
      [(0x0202 : BitVec 16)].flatMap ctrlMsgBytes := by decide
  have hright : Unmistakable [0x0202] := by
    constructor
    · intro word hword
      rw [List.mem_singleton.mp hword]
      decide
    · exact List.isChain_singleton _
  exact (control_words_iff (by decide) (by decide) (fun x k => x <<< (k % 32)) false (start 2)
    ⟨rfl, by decide, by decide⟩ twiceRun (by simp [twiceRun, Undisturbed]) [0x0202] harr
    [⟨false, false, false, 0⟩, ⟨false, false, false, 0⟩] (by simp) (by decide)).mpr hright

def resetRun : List (DpiStep 2) :=
  (ctrlMsgBytes ctrlMsgLogicReset).map .control ++ [⟨false, false, false, 0⟩, ⟨false, false, false, 0⟩].map .cycle

/-- The message of a reset is read as `0x0100`, and there is no reset. -/
theorem reset_message_lost :
    controlArrivals (eventsOf 2 (fun x k => x <<< (k % 32)) false (start 2) resetRun) = [ctrlMsgLogicReset].flatMap ctrlMsgBytes ∧
      ¬ (messages (eventsOf 2 (fun x k => x <<< (k % 32)) false (start 2) resetRun) =
            [ctrlMsgLogicReset].map (BitVec.setWidth 32) ∧
          logicRsts (eventsOf 2 (fun x k => x <<< (k % 32)) false (start 2) resetRun) =
            [ctrlMsgLogicReset].count ctrlMsgLogicReset) := by
  have hmsg : messages (eventsOf 2 (fun x k => x <<< (k % 32)) false (start 2) resetRun) = [0x0100] := by decide
  refine ⟨by decide, ?_⟩
  rintro ⟨hright, _⟩
  rw [hmsg] at hright
  exact absurd hright (by decide)

end Glip.Tcp
