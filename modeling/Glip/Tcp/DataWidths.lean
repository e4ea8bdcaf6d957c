import Glip.Tcp.DataPath

/-! The widths at which the data path carries every byte. -/
namespace Glip.Tcp
open Foundation
variable {n : Nat} {overshift : BitVec 32 → Nat → BitVec 32} {uartLike : Bool}

section Property
variable (n : Nat) (overshift : BitVec 32 → Nat → BitVec 32) (uartLike : Bool) (s : DpiToplevel n) (steps : List (DpiStep n))

/-- What is asked of a run: no assertion fails; the words delivered are the big-endian groups of the bytes
that arrived, and the bytes queued are those of the words accepted, up to what the object still has. It
has less than a word after enough ready cycles, and nothing to queue after a cycle with room. -/
structure CarriesBytes : Prop where
  carried : ∃ s' held, (dpiRun n overshift uartLike).after (some s) steps = some s' ∧
    held.length = s'.obj.mReadItem.mPartial ∧
    arrivals (eventsOf n overshift uartLike s steps) =
      (deliveries (eventsOf n overshift uartLike s steps)).flatMap beBytes ++ (held ++ s'.obj.mDataIn) ∧
    (accepts (eventsOf n overshift uartLike s steps)).flatMap beBytes =
      queuedBytes (eventsOf n overshift uartLike s steps) ++ unsent n s'.obj.mWriteItem ∧
    (s'.obj.mDataOut.length + n ≤ dataCapacity → ∀ i : DpiCycle n, i.rst = false →
      queuedBytes (eventsOf n overshift uartLike s (steps ++ [.cycle i])) =
        (accepts (eventsOf n overshift uartLike s steps)).flatMap beBytes)
  drained : ∀ cycles : List (DpiCycle n), (∀ i ∈ cycles, i.rst = false ∧ i.fifoInReady = true) →
    uartDelay * ((arrivals (eventsOf n overshift uartLike s steps)).length + 1) ≤ cycles.length →
    ∃ rest, rest.length < n ∧ arrivals (eventsOf n overshift uartLike s steps) =
      (deliveries (eventsOf n overshift uartLike s (steps ++ cycles.map .cycle))).flatMap beBytes ++ rest

def CarriesData : Prop :=
  ∀ s : DpiToplevel n, s.Connected → ∀ steps, (∀ e ∈ steps, Undisturbed e) → CarriesBytes n overshift uartLike s steps

end Property

def SignBits (item : TempStorage) : Prop :=
  ∀ p, 31 ≤ p → p < 64 → item.value.getLsbD p = item.value.getLsbD 63

theorem signBits_add {item : TempStorage} (h : SignBits item) (data : Byte) : SignBits (item.add overshift n data) := by
  have hext (x : BitVec 32) {p : Nat} (hlo : 31 ≤ p) (hhi : p < 64) : (x.signExtend 64).getLsbD p = x.getLsbD 31 := by
    rw [BitVec.getLsbD_signExtend, decide_eq_true hhi, Bool.true_and]
    split
    · rename_i hlt
      rw [Nat.le_antisymm (Nat.le_of_lt_succ hlt) hlo]
    · rw [BitVec.msb_eq_getLsbD_last]
  intro p hlo hhi
  rw [TempStorage.add, BitVec.getLsbD_or, BitVec.getLsbD_or, h p hlo hhi, hext _ hlo hhi, hext _ (by decide) (by decide)]

theorem holds_preserved (hn : n ≤ 4) : Preserved overshift n (Holds n) :=
  ⟨holds_reset, fun _ _ _ h => h, fun _ _ data h hp hlen => h.add overshift hn hp hlen data⟩

theorem signBits_preserved : Preserved overshift n fun item _ => SignBits item :=
  ⟨fun p _ _ => by simp [TempStorage.reset], fun _ _ _ h => h, fun _ _ data h _ _ => signBits_add h data⟩

/-- A word whose item holds some bytes has these bytes. -/
theorem beBytes_of_grouped {word : BitVec (8 * n)} {bytes : List Byte} (h : Grouped (Holds n) n word bytes) :
    beBytes word = bytes := by
  obtain ⟨hlen, item, hholds, rfl⟩ := h
  apply beBytes_eq hlen
  intro i hi t ht
  have hlt : 8 * (n - 1 - i) + t < 8 * n := by omega
  rw [BitVec.getLsbD_setWidth, decide_eq_true hlt, Bool.true_and, hholds i (hlen ▸ hi) t ht,
    List.getElem?_eq_getElem hi]
  rfl

theorem flatten_of_grouped {words : List (BitVec (8 * n))} {groups : List (List Byte)}
    (h : List.Forall₂ (Grouped (Holds n) n) words groups) : groups.flatten = words.flatMap beBytes := by
  induction h with
  | nil => rfl
  | cons hword _ ih => rw [List.flatten_cons, List.flatMap_cons, beBytes_of_grouped hword, ih]

theorem DpiToplevel.Connected.carrying {P : TempStorage → List Byte → Prop} {s : DpiToplevel n} (h : s.Connected)
    (hP : Preserved overshift n P) (hpos : 0 < n) : Carrying P s [] := by
  have hobj := h.obj
  refine ⟨?_, ?_, ?_, ?_, h.rcnt⟩
  · rw [hobj]
    rfl
  · rw [hobj]
    rfl
  · rw [hobj]
    exact .reset hP hpos
  · rw [hobj]
    exact Nat.zero_le n

section Runs
variable {P : TempStorage → List Byte → Prop} {s : DpiToplevel n} {held : List Byte}

variable (uartLike) in
/-- Ready cycles use up the time to the end of the whole words. -/
theorem run_drains (hP : Preserved overshift n P) (hpos : 0 < n) (hn : n ≤ 8) (cycles : List (DpiCycle n))
    (hcycles : ∀ i ∈ cycles, i.rst = false ∧ i.fifoInReady = true) (h : Carrying P s held) :
    ∃ s' held', (dpiRun n overshift uartLike).after (some s) (cycles.map .cycle) = some s' ∧
      Carries P s s' held held' (eventsOf n overshift uartLike s (cycles.map .cycle)) ∧
      arrivals (eventsOf n overshift uartLike s (cycles.map .cycle)) = [] ∧
      drainTime uartLike s' held' ≤ drainTime uartLike s held - cycles.length := by
  induction cycles generalizing s held with
  | nil => exact ⟨s, held, rfl, .refl h, rfl, Nat.le_refl _⟩
  | cons i cycles ih =>
    obtain ⟨hrst, hready⟩ := hcycles i (.head cycles)
    obtain ⟨s₁, held₁, evs, hcycle, h₁⟩ := cycle_carries uartLike hP hpos hn h i hrst
    have hstep : s.step overshift uartLike (.cycle i) = some (s₁, evs) := hcycle
    obtain ⟨s', held', hafter, hcar, hquiet, hdrain⟩ := ih (fun j hj => hcycles j (.tail i hj)) h₁.carrying
    have hone := h₁.drains hready
    rw [List.map_cons, after_cons_step hstep, eventsOf_cons_step hstep]
    refine ⟨s', held', hafter, h₁.toCarries.trans hcar, ?_, ?_⟩
    · rw [arrivals, List.filterMap_append, ← arrivals, ← arrivals, h₁.quiet, hquiet]
      rfl
    · rw [List.length_cons]
      omega

variable (uartLike) in
theorem waiting_of_drainTime (hpos : 0 < n) (h : drainTime uartLike s held = 0) :
    held.length + s.obj.mDataIn.length < n := by
  rw [drainTime] at h
  by_contra hge
  rw [if_neg hge] at h
  have hdiv : 0 < (held.length + s.obj.mDataIn.length) / n := Nat.div_pos (Nat.le_of_not_lt hge) hpos
  have hmul : 0 < uartDelay * ((held.length + s.obj.mDataIn.length) / n) := Nat.mul_pos (by decide) hdiv
  omega

variable (uartLike) in
theorem drainTime_le (h : Carrying P s held) {k : Nat} (hk : held.length + s.obj.mDataIn.length ≤ k) :
    drainTime uartLike s held ≤ uartDelay * (k + 1) := by
  rw [drainTime]
  split
  · exact Nat.zero_le _
  · rw [Nat.mul_add, Nat.mul_one]
    exact Nat.add_le_add (Nat.mul_le_mul_left _ ((Nat.div_le_self _ n).trans hk)) (armed_le true h.rcnt)

end Runs

/-- Up to 32 bits every byte is carried. -/
theorem carriesData_of_le (hpos : 0 < n) (hn : n ≤ 4) : CarriesData n overshift uartLike := by
  intro s hs steps hsteps
  have hn8 : n ≤ 8 := hn.trans (by decide)
  have hP : Preserved overshift n (Holds n) := holds_preserved hn
  obtain ⟨s', held, hafter, hcar⟩ := run_carries uartLike hP hpos hn8 steps hsteps (hs.carrying hP hpos)
  obtain ⟨groups, hgroups, hin⟩ := hcar.incoming
  have hout := hcar.outgoing
  rw [hs.obj] at hin hout
  rw [flatten_of_grouped hgroups] at hin
  change arrivals (eventsOf n overshift uartLike s steps) = _ ++ (held ++ s'.obj.mDataIn) at hin
  refine ⟨⟨s', held, hafter, hcar.carrying.read.mPartial.symm, hin, hout, ?_⟩, ?_⟩
  · intro hroom i hi
    obtain ⟨s₂, held₂, evs, hcycle, h₂⟩ := cycle_carries uartLike hP hpos hn8 hcar.carrying i hi
    have hstep : s'.step overshift uartLike (.cycle i) = some (s₂, evs) := hcycle
    have hemit : eventsOf n overshift uartLike s' [.cycle i] = evs := (eventsOf_cons_step hstep []).trans (List.append_nil evs)
    rw [eventsOf_append _ hafter, hemit, queuedBytes, List.filterMap_append, ← queuedBytes, ← queuedBytes, h₂.flushes hroom]
    exact hout.symm
  · intro cycles hcycles hlen
    obtain ⟨s₂, held₂, hafter₂, hcar₂, hquiet, hdrain⟩ :=
      run_drains uartLike hP hpos hn8 cycles hcycles hcar.carrying
    have hwaiting : held.length + s'.obj.mDataIn.length ≤ (arrivals (eventsOf n overshift uartLike s steps)).length := by
      rw [hin, List.length_append, List.length_append]
      exact Nat.le_add_left _ _
    have htime := drainTime_le uartLike hcar.carrying hwaiting
    obtain ⟨groups₂, hgroups₂, hin₂⟩ := (hcar.trans hcar₂).incoming
    rw [flatten_of_grouped hgroups₂, hs.obj, arrivals, List.filterMap_append, ← arrivals, ← arrivals, hquiet,
      List.append_nil] at hin₂
    rw [eventsOf_append _ hafter]
    refine ⟨held₂ ++ s₂.obj.mDataIn, ?_, hin₂⟩
    rw [List.length_append]
    apply waiting_of_drainTime uartLike hpos
    omega

/-- Bytes that the queue has room for all arrive. -/
theorem arrivals_data {s : DpiToplevel n} (bytes : List Byte) (h : s.obj.mDataIn.length + bytes.length ≤ dataCapacity) :
    arrivals (eventsOf n overshift uartLike s (bytes.map .data)) = bytes := by
  induction bytes generalizing s with
  | nil => rfl
  | cons b bytes ih =>
    rw [List.length_cons] at h
    have hroom : s.obj.mDataIn.length < dataCapacity := by omega
    have hstep : s.step overshift uartLike (.data b) =
        some ({ s with obj := { s.obj with mDataIn := s.obj.mDataIn ++ [b] } }, [.arrived b]) := by
      rw [DpiToplevel.step, GlipTcp.receiveData, if_pos hroom, if_pos hroom]
    have hrest := ih (s := { s with obj := { s.obj with mDataIn := s.obj.mDataIn ++ [b] } }) (by
      rw [List.length_append, List.length_singleton]
      omega)
    rw [List.map_cons, eventsOf_cons_step hstep]
    exact congrArg (b :: ·) hrest

/-- Above 32 bits the first byte of a word is `0x00` or `0xff`. -/
theorem beByte_of_signBits (hn : 4 < n) (hn8 : n ≤ 8) {item : TempStorage} (h : SignBits item) :
    (beByte (item.value.setWidth (8 * n)) 0).getLsbD 0 = (beByte (item.value.setWidth (8 * n)) 0).getLsbD 1 := by
  have hbit {t : Nat} (ht : t < 8) : (beByte (item.value.setWidth (8 * n)) 0).getLsbD t = item.value.getLsbD 63 := by
    have hlt : 8 * (n - 1 - 0) + t < 8 * n := by omega
    rw [getLsbD_beByte _ ht, BitVec.getLsbD_setWidth, decide_eq_true hlt, Bool.true_and]
    exact h _ (by omega) (by omega)
  rw [hbit (by decide), hbit (by decide)]

def start (n : Nat) : DpiToplevel n := ⟨.reset true, false, false, 0, 0, 0, false, false⟩

/-- Above 32 bits a word whose first byte is `0x01` does not come through. -/
theorem not_carriesData_of_lt (hn : 4 < n) (hn8 : n ≤ 8) : ¬ CarriesData n overshift uartLike := by
  intro hall
  have hpos : 0 < n := Nat.zero_lt_of_lt hn
  have hP : Preserved overshift n fun item _ => SignBits item := signBits_preserved
  have hstart : DpiToplevel.Connected (start n) := ⟨rfl, Nat.zero_le _, Nat.zero_le _⟩
  let bytes : List Byte := 1 :: List.replicate (n - 1) 0
  have hbytes : bytes.length = n := by
    rw [List.length_cons, List.length_replicate, Nat.sub_add_cancel hpos]
  have harr : arrivals (eventsOf n overshift uartLike (start n) (bytes.map .data)) = bytes :=
    arrivals_data bytes (by
      rw [hbytes]
      exact (Nat.zero_add n).trans_le (hn8.trans (by decide)))
  have hsteps : ∀ e ∈ bytes.map (DpiStep.data (n := n)), Undisturbed e := by
    intro e he
    obtain ⟨b, _, rfl⟩ := List.mem_map.mp he
    trivial
  let cycles : List (DpiCycle n) := List.replicate (uartDelay * (n + 1)) ⟨false, true, false, 0⟩
  have hcycles : ∀ i ∈ cycles, i.rst = false ∧ i.fifoInReady = true := by
    intro i hi
    rw [List.eq_of_mem_replicate hi]
    exact ⟨rfl, rfl⟩
  obtain ⟨rest, hrest, heq⟩ := (hall (start n) hstart _ hsteps).drained cycles hcycles (by
    rw [harr, hbytes, List.length_replicate])
  obtain ⟨s', held', _, hcar⟩ := run_carries uartLike hP hpos hn8
    (bytes.map .data ++ cycles.map .cycle) (by
      intro e he
      rcases List.mem_append.mp he with hdata | hcycle
      · exact hsteps e hdata
      · obtain ⟨i, hi, rfl⟩ := List.mem_map.mp hcycle
        exact (hcycles i hi).1) (hstart.carrying hP hpos)
  obtain ⟨groups, hgroups, _⟩ := hcar.incoming
  rw [harr] at heq
  generalize deliveries (eventsOf n overshift uartLike (start n) (bytes.map .data ++ cycles.map .cycle)) = words
    at heq hgroups
  cases hgroups with
  | nil =>
    have hlen := congrArg List.length heq
    rw [hbytes, List.flatMap_nil, List.nil_append] at hlen
    exact absurd hlen hrest.ne'
  | cons hword _ =>
    -- the delivery of a word that begins with the byte `0x01`
    obtain ⟨_, item, hsign, rfl⟩ := hword
    have hbits := beByte_of_signBits hn hn8 hsign
    have hfirst := drop_beBytes (item.value.setWidth (8 * n)) hpos
    rw [List.drop_zero] at hfirst
    rw [List.flatMap_cons, hfirst] at heq
    have hone : (1 : Byte) = beByte (item.value.setWidth (8 * n)) 0 := (List.cons.inj heq).1
    rw [← hone] at hbits
    exact absurd hbits (by decide)

/-- The data path carries every byte exactly at the widths up to 32 bits. -/
theorem carriesData_iff (hpos : 0 < n) (hn : n ≤ 8) (overshift : BitVec 32 → Nat → BitVec 32) (uartLike : Bool) :
    CarriesData n overshift uartLike ↔ n ≤ 4 := by
  constructor
  · intro h
    by_contra hlt
    exact not_carriesData_of_lt (Nat.lt_of_not_le hlt) hn h
  · exact carriesData_of_le hpos

/-- At 16 bits. -/
theorem carriesData_two : CarriesData 2 (fun x k => x <<< (k % 32)) true :=
  (carriesData_iff (by decide) (by decide) _ _).mpr (by decide)

def signRun : List (DpiStep 8) :=
  [0, 0, 0, 0, 0x80, 0, 0, 0].map .data ++ [.cycle ⟨false, true, false, 0⟩]

/-- At 64 bits the sign of one byte covers the four bytes before it. -/
theorem sign_covers : ¬ CarriesData 8 (fun x k => x <<< (k % 32)) false := by
  intro h
  have hrun := h (start 8) ⟨rfl, by decide, by decide⟩ signRun (by simp [signRun, Undisturbed])
  obtain ⟨s', held, _, _, hin, _⟩ := hrun.carried
  have hword : deliveries (eventsOf 8 (fun x k => x <<< (k % 32)) false (start 8) signRun) =
      [(0xffffffff80000000 : BitVec 64)] := by decide
  have hsent : (arrivals (eventsOf 8 (fun x k => x <<< (k % 32)) false (start 8) signRun)).head? = some 0 := by decide
  rw [hword] at hin
  rw [hin] at hsent
  have hseen : (List.flatMap (beBytes (n := 8)) [(0xffffffff80000000 : BitVec 64)] ++ (held ++ s'.obj.mDataIn)).head? =
      some 0xff := rfl
  exact absurd (hsent.symm.trans hseen) (by decide)

end Glip.Tcp
