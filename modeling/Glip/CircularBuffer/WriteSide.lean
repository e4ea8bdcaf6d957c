import Glip.CircularBuffer.Contents

/-! The functions of the write side, called by the only writer of a buffer while
the reader may move. The writer sees a fill level that is never too small. -/
namespace Glip.CircularBuffer
open Foundation Prog

/-- What the writer relies on: the reader only takes bytes away. -/
structure WriterRely (size : Nat) (oom : Prop) (s t : Cbuf) : Prop where
  wr : t.wrPtr = s.wrPtr
  data : t.data = s.data
  hint : t.hintMaxWriteSize = s.hintMaxWriteSize
  tmpSize : t.writeDataTmpSize = s.writeDataTmpSize
  tmp : t.writeDataTmp = s.writeDataTmp
  ok : Ok size oom s → Ok size oom t ∧ used size t ≤ used size s

structure WriterStep (size : Nat) (oom : Prop) (s t : Cbuf) : Prop where
  wr : t.wrPtr = s.wrPtr
  rd : t.rdPtr = s.rdPtr
  contents : contents size t = contents size s
  hint : t.hintMaxReadSize = s.hintMaxReadSize
  tmpSize : t.readDataTmpSize = s.readDataTmpSize
  tmp : t.readDataTmp = s.readDataTmp
  ok : Ok size oom s → Ok size oom t

structure WriterAdds (size : Nat) (oom : Prop) (bs : List UInt8) (s t : Cbuf) : Prop where
  rd : t.rdPtr = s.rdPtr
  contents : contents size t = contents size s ++ bs
  hint : t.hintMaxReadSize = s.hintMaxReadSize
  tmpSize : t.readDataTmpSize = s.readDataTmpSize
  tmp : t.readDataTmp = s.readDataTmp
  ok : Ok size oom s → Ok size oom t

/-- How the reader moves meanwhile, and what a level that the writer has read
says about the bytes in the buffer. -/
structure WriterView (size : Nat) (oom : Prop) where
  rely : Cbuf → Cbuf → Prop
  level : Nat → Nat → Prop
  within : ∀ s t, rely s t → WriterRely size oom s t
  refl : ∀ u, level u u
  le : ∀ v u, level v u → u ≤ v
  mono : ∀ v s t, rely s t → Ok size oom s → level v (used size s) → level v (used size t)

def WriterView.shared (size : Nat) (oom : Prop) : WriterView size oom where
  rely := WriterRely size oom
  level v u := u ≤ v
  within _ _ h := h
  refl _ := le_rfl
  le _ _ h := h
  mono _ _ _ h hs hl := (h.ok hs).2.trans hl

def WriterView.alone (size : Nat) (oom : Prop) : WriterView size oom where
  rely := Eq
  level := Eq
  within s t h := by subst h; exact ⟨rfl, rfl, rfl, rfl, rfl, fun h => ⟨h, le_rfl⟩⟩
  refl _ := rfl
  le v u h := h.ge
  mono v s t h _ hl := by subst h; exact hl

section
variable {size : Nat} {oom : Prop}

theorem WriterRely.refl (s : Cbuf) : WriterRely size oom s s :=
  ⟨rfl, rfl, rfl, rfl, rfl, fun h => ⟨h, le_rfl⟩⟩

theorem WriterRely.trans {s t u : Cbuf} (h : WriterRely size oom s t) (h' : WriterRely size oom t u) :
    WriterRely size oom s u :=
  ⟨h'.wr.trans h.wr, h'.data.trans h.data, h'.hint.trans h.hint, h'.tmpSize.trans h.tmpSize,
    h'.tmp.trans h.tmp, fun hs =>
      let ⟨ht, hle⟩ := h.ok hs
      let ⟨hu, hle'⟩ := h'.ok ht
      ⟨hu, hle'.trans hle⟩⟩

theorem WriterStep.refl (s : Cbuf) : WriterStep size oom s s := ⟨rfl, rfl, rfl, rfl, rfl, rfl, id⟩

theorem WriterStep.trans {s t u : Cbuf} (h : WriterStep size oom s t) (h' : WriterStep size oom t u) :
    WriterStep size oom s u :=
  ⟨h'.wr.trans h.wr, h'.rd.trans h.rd, h'.contents.trans h.contents, h'.hint.trans h.hint,
    h'.tmpSize.trans h.tmpSize, h'.tmp.trans h.tmp, h'.ok ∘ h.ok⟩

theorem WriterStep.used {s t : Cbuf} (h : WriterStep size oom s t) : used size t = used size s := by
  rw [CircularBuffer.used, CircularBuffer.used, h.wr, h.rd]

theorem WriterStep.adds {s t : Cbuf} (h : WriterStep size oom s t) : WriterAdds size oom [] s t :=
  ⟨h.rd, by rw [h.contents, List.append_nil], h.hint, h.tmpSize, h.tmp, h.ok⟩

variable (V : WriterView size oom)

/-- The writer at work: its write pointer is `w` and its temporary buffer `tmp`,
it has found `room` bytes free, and the free part of the array begins with `bs`. -/
structure Writing (w : Nat) (tmp : Option Block) (room : Nat) (bs : List UInt8) (s : Cbuf) : Prop where
  ok : Ok size oom s
  wr : s.wrPtr = w
  tmp : s.writeDataTmp = tmp
  room : ∃ v, V.level v (used size s) ∧ v + room ≤ size
  done : window s.data.byte size w bs.length = bs

abbrev WriterTriple {α : Type} (P : Cbuf → Prop) (p : Prog Cbuf α) (Q : α → Cbuf → Prop) : Prop :=
  Triple V.rely (WriterStep size oom) oom P p Q

variable {V} {crash : Prop} {w room : Nat} {tmp : Option Block} {as bs : List UInt8} {s t : Cbuf}

theorem Writing.fits (h : Writing V w tmp room bs s) : used size s + room ≤ size := by
  obtain ⟨v, hv, hle⟩ := h.room
  have := V.le _ _ hv
  omega

theorem Writing.stable : Stable V.rely (Writing V w tmp room bs) := fun s t h hs =>
  have hr := V.within s t h
  have ⟨v, hv, hle⟩ := hs.room
  ⟨(hr.ok hs.ok).1, hr.wr.trans hs.wr, hr.tmp.trans hs.tmp, ⟨v, V.mono v s t h hs.ok hv, hle⟩,
    hr.data ▸ hs.done⟩

/-- Less room is needed than was found. -/
theorem Writing.shrink {room' : Nat} (h : Writing V w tmp room bs s) (hle : room' ≤ room) :
    Writing V w tmp room' bs s :=
  have ⟨v, hv, hr⟩ := h.room
  ⟨h.ok, h.wr, h.tmp, ⟨v, hv, by omega⟩, h.done⟩

private def AtPtr (size : Nat) (oom : Prop) (w : Nat) (tmp : Option Block) (s : Cbuf) : Prop :=
  Ok size oom s ∧ s.wrPtr = w ∧ s.writeDataTmp = tmp

private theorem atPtr_stable : Stable V.rely (AtPtr size oom w tmp) := fun s t h hs =>
  have hr := V.within s t h
  ⟨(hr.ok hs.1).1, hr.wr.trans hs.2.1, hr.tmp.trans hs.2.2⟩

/-- A load of the write pointer, which is the writer's own. -/
private theorem writer_loadWr {α : Type} {P : Cbuf → Prop} {Q : α → Cbuf → Prop} {f : Nat → Prog Cbuf α}
    (hP : Stable V.rely P) (hw : ∀ s, P s → s.wrPtr = w)
    (hf : Triple V.rely (WriterStep size oom) crash P (f w) Q) :
    Triple V.rely (WriterStep size oom) crash P (loadWr >>= f) Q := by
  have hload : Triple V.rely (WriterStep size oom) crash P loadWr fun a s => a = w ∧ P s :=
    Triple.view .refl hP fun s hs => ⟨hw s hs, hs⟩
  refine hload.bind fun a => Triple.given fun ha => ?_
  rw [ha]
  exact hf

private theorem writer_isFull (hs : IsSize size) :
    Triple V.rely (WriterStep size oom) crash (AtPtr size oom w tmp) (isFull size) fun full s =>
      AtPtr size oom w tmp s ∧ if full then V.level size (used size s) else used size s < size := by
  have hrd : Triple V.rely (WriterStep size oom) crash (AtPtr size oom w tmp) loadRd fun rd s =>
      AtPtr size oom w tmp s ∧
      if w = rd ^^^ size then V.level size (used size s) else used size s < size := by
    refine Triple.view .refl atPtr_stable ?_
    rintro s ⟨hok, rfl, htmp⟩
    refine ⟨⟨hok, rfl, htmp⟩, ?_⟩
    have hfull := full_iff hs hok.wr hok.rd
    split
    · rw [used, hfull.mp ‹_›]
      exact V.refl size
    · exact lt_of_le_of_ne hok.fill fun h => ‹¬_› (hfull.mpr h)
  refine writer_loadWr atPtr_stable (fun s h => h.2.1) ?_
  refine hrd.bind fun rd => (Triple.pure _).conseq (fun s h => ?_) fun _ _ h => h
  exact ⟨h.1, by simpa using h.2⟩

private theorem writer_fillLevel (hs : IsSize size) :
    Triple V.rely (WriterStep size oom) crash (AtPtr size oom w tmp) (fillLevel size) fun v s =>
      AtPtr size oom w tmp s ∧ V.level v (used size s) ∧ v ≤ size := by
  have hstable : Stable V.rely fun s => AtPtr size oom w tmp s ∧ used size s < size :=
    fun s t h hu => ⟨atPtr_stable s t h hu.1, ((V.within s t h).ok hu.1.1).2.trans_lt hu.2⟩
  have hrd : Triple V.rely (WriterStep size oom) crash (fun s => AtPtr size oom w tmp s ∧ used size s < size)
      loadRd fun rd s =>
      AtPtr size oom w tmp s ∧ V.level (levelOf size w rd) (used size s) ∧ levelOf size w rd ≤ size := by
    refine Triple.view .refl hstable ?_
    rintro s ⟨⟨hok, rfl, htmp⟩, hlt⟩
    have hl : levelOf size s.wrPtr s.rdPtr = used size s := by
      rw [levelOf_eq hs hok.wr hok.rd hok.fill]
      exact if_neg hlt.ne
    rw [hl]
    exact ⟨⟨hok, rfl, htmp⟩, V.refl _, hlt.le⟩
  refine (writer_isFull hs).bind fun full => Triple.ite (fun hf => ?_) fun hf => ?_
  · refine (Triple.pure size).conseq (fun s h => ?_) fun _ _ h => h
    exact ⟨h.1, by simpa [hf] using h.2, le_rfl⟩
  · refine (writer_loadWr hstable (fun s h => h.1.2.1) ?_).conseq
      (fun s h => ⟨h.1, by simpa [hf] using h.2⟩) fun _ _ h => h
    exact hrd.bind fun rd => fun _ s hs h => ⟨hs, h⟩

/-- The free level that the writer sees was free when it looked. -/
private theorem writer_freeLevel (hs : IsSize size) :
    Triple V.rely (WriterStep size oom) crash (AtPtr size oom w tmp) (freeLevel size) fun free s =>
      Writing V w tmp free [] s ∧ ∃ v, V.level v (used size s) ∧ v ≤ size ∧ free = size - v := by
  refine (writer_fillLevel hs).bind fun v => (Triple.pure _).conseq ?_ fun _ _ h => h
  rintro s ⟨⟨hok, rfl, htmp⟩, hv, hle⟩
  have hl := hs.le
  rw [sizeSub_eq hle (by omega)]
  exact ⟨⟨hok, rfl, htmp, ⟨v, hv, by omega⟩, rfl⟩, v, hv, hle, rfl⟩

/-- A store behind what has been written already. -/
private theorem writer_storeData (hs : IsSize size) (bs : List UInt8) {off : Nat} (ho : off ≡ w + as.length [MOD size])
    (hoff : off + bs.length ≤ size) (hroom : as.length + bs.length ≤ room) :
    Triple V.rely (WriterStep size oom) crash (Writing V w tmp room as) (storeData off bs) fun _ =>
      Writing V w tmp room (as ++ bs) := by
  refine Triple.atomic Writing.stable fun s h => ?_
  have hfits := h.fits
  obtain ⟨hok, rfl, htmp, hlevel, hdone⟩ := h
  obtain ⟨d, hd, hlen, hf⟩ := store_filled hs hok ho hoff (by omega)
  have hok' : Ok size oom { s with data := d } :=
    ⟨hok.wr, hok.rd, hok.fill, hlen, hok.writeTmp, hok.readTmp⟩
  rw [hd]
  refine ⟨⟨rfl, rfl, hf.contents, rfl, rfl, rfl, fun _ => hok'⟩, hok', rfl, htmp, hlevel, ?_⟩
  rw [List.length_append, window_add]
  exact congrArg₂ _ (hf.kept.trans hdone) hf.here

private theorem sliceOf_eq {off n : Nat} (h : off + n ≤ bs.length) :
    sliceOf bs off n = pure ((bs.drop off).take n) := if_pos h

private theorem index_add (hs : IsSize size) {n : Nat} (hn : n ≤ size) :
    sizeAdd (index size w) n = w % size + n := by
  have hlt := Nat.mod_lt w hs.pos
  have hle := hs.le
  rw [index_eq hs, sizeAdd_eq (by omega)]

private theorem writer_copyIn (hs : IsSize size) (data : List UInt8) (hroom : data.length ≤ size) :
    Triple V.rely (WriterStep size oom) crash (Writing V w tmp data.length []) (copyIn size data) fun _ =>
      Writing V w tmp data.length data := by
  have hlt := Nat.mod_lt w hs.pos
  have hle := hs.le
  refine writer_loadWr Writing.stable (fun s h => h.wr) ?_
  rw [index_add hs hroom]
  refine Triple.ite (fun hfit => ?_) fun hfit => ?_
  · refine writer_loadWr Writing.stable (fun s h => h.wr) ?_
    rw [index_eq hs]
    exact writer_storeData hs _ (Nat.mod_modEq w size) hfit (by simp)
  · refine writer_loadWr Writing.stable (fun s h => h.wr) ?_
    refine writer_loadWr Writing.stable (fun s h => h.wr) ?_
    rw [index_eq hs, sizeSub_eq hlt.le (by omega), sizeSub_eq (by omega) (by omega),
      sliceOf_eq (by omega), sliceOf_eq (by omega)]
    have hat : (data.take (size - w % size)).length = size - w % size := by
      rw [List.length_take]
      omega
    have hend : (data.drop (size - w % size)).take (data.length - (size - w % size)) =
        data.drop (size - w % size) := List.take_of_length_le (by simp)
    refine (writer_storeData hs _ (Nat.mod_modEq w size) (by simp; omega) (by simp)).bind fun _ => ?_
    rw [hend, List.nil_append, List.drop_zero]
    refine (writer_storeData hs _ (wrap_modEq hs hat) (by simp; omega) (by simp; omega)).conseq
      (fun _ h => h) fun _ s h => ?_
    rwa [List.take_append_drop] at h

variable (V) in
def WriteLevel (nomem : Prop) (n : Nat) (s₀ s : Cbuf) : Rc → Prop
  | .ok => ∃ v, V.level v (used size s₀) ∧ v + n ≤ size
  | .einval => ∃ v, V.level v (used size s) ∧ size < v + n
  | .enomem => nomem

variable (V) in
/-- How a call that wants room for `n` bytes to add `bs` ends: it adds them if
the level it saw leaves the room, and nothing otherwise. -/
structure WriteOutcome (nomem : Prop) (n : Nat) (bs : List UInt8) (rc : Rc) (s₀ s : Cbuf) : Prop where
  adds : WriterAdds size oom (if rc = .ok then bs else []) s₀ s
  level : WriteLevel V nomem n s₀ s rc

private theorem writer_advance (hs : IsSize size) {nomem : Prop} {m : Nat} (hm : m ≤ bs.length)
    (hb : bs.length ≤ room) (hst : WriterStep size oom s t) (h : Writing V w tmp room bs t) :
    Safe V.rely (WriterStep size oom) crash (WriteOutcome V nomem room (bs.take m))
      (advanceWr size m >>= fun _ => pure .ok) s t := by
  rw [safe_bind]
  refine (safe_atomic _ _ _ _).mpr ⟨hst, fun u hu => ?_⟩
  have hfits := (Writing.stable t u hu h).fits
  obtain ⟨hok, rfl, -, hlevel, hdone⟩ := Writing.stable t u hu h
  have hadv := advanceWr_contents hs hok (n := m) (by omega)
  have hwin : window u.data.byte size u.wrPtr m = bs.take m := by
    rw [← window_take _ _ _ _ _ hm, hdone]
  refine ⟨⟨rfl, ?_, rfl, rfl, rfl, fun _ => hadv.1⟩, hlevel⟩
  rw [hadv.2, hwin]
  rfl

theorem cbufWrite_safe (hs : IsSize size) (data : List UInt8) (h : Ok size oom s) :
    Safe V.rely (WriterStep size oom) crash (WriteOutcome V False data.length data) (cbufWrite size data) s s := by
  refine (writer_freeLevel hs).andThen (.refl s) ⟨h, rfl, rfl⟩ fun free t₀ t hst hfree => ?_
  obtain ⟨hw, v, hv, hle, rfl⟩ := hfree
  split
  · exact ⟨hst.adds, v, hv, by omega⟩
  · have hfits := hw.fits
    refine (writer_copyIn hs data (by omega)).andThen hst (hw.shrink (by omega)) fun _ u₀ u hst' hw' => ?_
    simpa using writer_advance hs (le_refl data.length) (le_refl _) hst' hw'

theorem freeLevel_safe (hs : IsSize size) (h : Ok size oom s) :
    Safe V.rely (WriterStep size oom) crash
      (fun free s₀ s => WriterStep size oom s₀ s ∧ ∃ v, V.level v (used size s) ∧ v ≤ size ∧ free = size - v)
      (freeLevel size) s s :=
  (writer_freeLevel hs s s (.refl s) ⟨h, rfl, rfl⟩).mono fun _ _ _ hv => ⟨hv.1, hv.2.2⟩

theorem setHintMaxWriteSize_safe (hint : Nat) (s : Cbuf) :
    Safe V.rely (WriterStep size oom) oom (fun _ s₀ s => WriterStep size oom s₀ s)
      (setHintMaxWriteSize hint) s s :=
  (safe_atomic _ _ _ _).mpr ⟨.refl s, fun _ _ => ⟨rfl, rfl, rfl, rfl, rfl, rfl,
    fun h => ⟨h.wr, h.rd, h.fill, h.len, h.writeTmp, h.readTmp⟩⟩⟩

private inductive Reserved (V : WriterView size oom) (alloc : Alloc) (w n : Nat) (s : Cbuf) : Rc × Ptr → Prop where
  | direct (tmp : Option Block) : w % size + n ≤ size → Writing V w tmp n [] s →
      Reserved V alloc w n s (.ok, .data (w % size))
  | temporary (b : Block) : ¬w % size + n ≤ size → oom ∨ n ≤ b.len → Writing V w (some b) n [] s →
      Reserved V alloc w n s (.ok, .writeDataTmp)
  | null : oom → Reserved V alloc w n s (.ok, .null)
  | full (p : Ptr) (v : Nat) : V.level v (used size s) → size < v + n → Reserved V alloc w n s (.einval, p)
  | failed (p : Ptr) : alloc = none → Reserved V alloc w n s (.enomem, p)

private theorem writer_grow (hsmall : oom ∨ size ≤ 2 ^ 29) {alloc : Alloc} (halloc : alloc = none → oom) (n : Nat) :
    WriterTriple V (Writing V w tmp n []) (growWriteTmp size alloc n) fun ok s =>
      if ok then ∃ tmp, (oom ∨ n ≤ capacity tmp) ∧ Writing V w tmp n [] s else alloc = none := by
  refine Triple.atomic Writing.stable fun s h => ?_
  have hfits := h.fits
  obtain ⟨hok, rfl, rfl, hlevel, hdone⟩ := h
  split
  · rename_i hlt
    have hnew : oom ∨ n ≤ if n ≤ s.hintMaxWriteSize then s.hintMaxWriteSize else calcBufsize n size := by
      refine hsmall.imp id fun hsmall => ?_
      split
      · assumption
      · exact le_calcBufsize (by omega) (by omega) (by omega)
    generalize (if n ≤ s.hintMaxWriteSize then s.hintMaxWriteSize else calcBufsize n size) = newSize at hnew ⊢
    cases alloc with
    | none =>
      refine ⟨⟨rfl, rfl, rfl, rfl, rfl, rfl, fun hok => ?_⟩, rfl⟩
      exact ⟨hok.wr, hok.rd, hok.fill, hok.len, .inl (halloc rfl), hok.readTmp⟩
    | some junk =>
      have hok' (hok : Ok size oom s) : Ok size oom { s with
          writeDataTmpSize := newSize, writeDataTmp := some (.realloc s.writeDataTmp newSize junk) } :=
        ⟨hok.wr, hok.rd, hok.fill, hok.len, .inr le_rfl, hok.readTmp⟩
      refine ⟨⟨rfl, rfl, rfl, rfl, rfl, rfl, hok'⟩, ?_⟩
      simp only [Option.map_some, Option.isSome_some, if_true]
      exact ⟨some (.realloc s.writeDataTmp newSize junk), hnew, hok' hok, rfl, rfl, hlevel, hdone⟩
  · refine ⟨.refl s, s.writeDataTmp, hok.writeTmp.imp id fun hle => ?_, hok, rfl, rfl, hlevel, hdone⟩
    omega

private theorem writer_tmpPtr :
    WriterTriple V (Writing V w tmp room bs) writeTmpPtr fun ptr s =>
      ptr = (if tmp.isSome then .writeDataTmp else .null) ∧ Writing V w tmp room bs s := by
  refine Triple.view .refl Writing.stable fun s h => ⟨?_, h⟩
  rw [h.tmp]

private theorem cbufReserve_triple (hs : IsSize size) (hsmall : oom ∨ size ≤ 2 ^ 29) {alloc : Alloc}
    (halloc : alloc = none → oom) (n : Nat) :
    WriterTriple V (AtPtr size oom w tmp) (cbufReserve size alloc n) fun r s => Reserved V alloc w n s r := by
  refine (writer_freeLevel hs).bind fun free => Triple.ite (fun hfull => ?_) fun hroom => ?_
  · refine (Triple.pure _).conseq ?_ fun _ _ h => h
    rintro s ⟨-, v, hv, hle, rfl⟩
    exact .full _ v hv (by omega)
  · refine Triple.conseq (Triple.given fun hn : n ≤ size => ?_) (P := fun s => n ≤ size ∧ Writing V w tmp n [] s)
      (fun s h => ⟨?_, h.1.shrink (by omega)⟩) fun _ _ h => h
    swap
    · obtain ⟨-, v, hv, hle, rfl⟩ := h
      omega
    refine writer_loadWr Writing.stable (fun s h => h.wr) ?_
    rw [index_add hs hn]
    refine Triple.ite (fun hfit => ?_) fun hfit => ?_
    · refine writer_loadWr Writing.stable (fun s h => h.wr) ?_
      rw [index_eq hs]
      exact (Triple.pure _).conseq (fun s h => .direct tmp hfit h) fun _ _ h => h
    · refine (writer_grow hsmall halloc n).bind fun ok => Triple.ite (fun hk => ?_) fun hk => ?_
      · refine Triple.conseq (Triple.exists_ fun tmp => Triple.given fun hcap =>
          writer_tmpPtr.bind fun ptr => Triple.given fun hptr => ?_) (fun s h => by simpa [hk] using h) fun _ _ h => h
        subst hptr
        cases tmp with
        | none =>
          have hlt := Nat.mod_lt w hs.pos
          have ho : oom := hcap.elim id fun hle => (hfit (by simp [capacity] at hle; omega)).elim
          exact (Triple.pure _).conseq (fun s h => .null ho) fun _ _ h => h
        | some b => exact (Triple.pure _).conseq (fun s h => .temporary b hfit hcap h) fun _ _ h => h
      · exact (Triple.pure _).conseq (fun s h => .failed _ (by simpa [hk] using h)) fun _ _ h => h

private theorem writer_storeTmp {b : Block} (hb : oom ∨ bs.length ≤ b.len) :
    WriterTriple V (Writing V w (some b) room as) (storeThrough .writeDataTmp bs) fun _ s =>
      ∃ b', b.store 0 bs = some b' ∧ Writing V w (some b') room as s := by
  refine Triple.atomic Writing.stable fun s h => ?_
  obtain ⟨hok, rfl, htmp, hlevel, hdone⟩ := h
  rw [htmp, Option.bind_some]
  cases hst : b.store 0 bs with
  | none =>
    refine ⟨.refl s, hb.elim id fun hle => ?_⟩
    simp [Block.store, hle] at hst
  | some b' =>
    have hok' (hok : Ok size oom s) : Ok size oom { s with writeDataTmp := some b' } := by
      refine ⟨hok.wr, hok.rd, hok.fill, hok.len, hok.writeTmp.imp id fun hle => ?_, hok.readTmp⟩
      simpa [capacity, htmp, Block.store_len hst] using hle
    exact ⟨⟨rfl, rfl, rfl, rfl, rfl, rfl, hok'⟩, b', rfl, hok' hok, rfl, rfl, hlevel, hdone⟩

private theorem writer_loadTmp {b : Block} {off n : Nat} (hb : oom ∨ off + n ≤ b.len) :
    WriterTriple V (Writing V w (some b) room as) (loadWriteTmp off n) fun bs s =>
      b.load off n = some bs ∧ Writing V w (some b) room as s := by
  refine Triple.atomic Writing.stable fun s h => ?_
  rw [h.tmp, Option.bind_some]
  cases hl : b.load off n with
  | none =>
    refine ⟨.refl s, hb.elim id fun hle => ?_⟩
    simp [Block.load, hle] at hl
  | some bs => exact ⟨.refl s, rfl, h⟩

/-- The copy of a commit puts at least the committed bytes in place. -/
private theorem writer_copyFromTmp (hs : IsSize size) {b : Block} {n m : Nat} {data : List UInt8}
    (hn : ¬w % size + n ≤ size) (hns : n ≤ size) (hmn : m ≤ n) (hb : oom ∨ n ≤ b.len)
    (hdata : b.load 0 m = some data) :
    WriterTriple V (Writing V w (some b) n []) (copyFromTmp size m) fun _ s =>
      ∃ bs, (m ≤ bs.length ∧ bs.length ≤ n ∧ bs.take m = data) ∧ Writing V w (some b) n bs s := by
  have hlt := Nat.mod_lt w hs.pos
  have hle := hs.le
  obtain ⟨-, rfl⟩ := Block.load_some hdata
  refine writer_loadWr Writing.stable (fun s h => h.wr) ?_
  refine writer_loadWr Writing.stable (fun s h => h.wr) ?_
  rw [index_eq hs, sizeSub_eq hlt.le (by omega)]
  refine (writer_loadTmp (hb.imp id fun h => by omega)).bind fun atEnd => Triple.given fun hend => ?_
  obtain ⟨-, rfl⟩ := Block.load_some hend
  refine (writer_storeData hs _ (Nat.mod_modEq w size) (by simp; omega) (by simp; omega)).bind fun _ => ?_
  rw [List.nil_append]
  refine Triple.ite (fun hm => ?_) fun hm => ?_
  · rw [sizeSub_eq (by omega) (by omega)]
    refine (writer_loadTmp (hb.imp id fun h => by omega)).bind fun atStart => Triple.given fun hstart => ?_
    obtain ⟨-, rfl⟩ := Block.load_some hstart
    refine (writer_storeData hs _ (wrap_modEq hs (by simp)) (by simp; omega) (by simp; omega)).conseq
      (fun _ h => h) fun _ s h => ⟨_, ⟨?_, ?_, ?_⟩, h⟩
    · simp only [List.length_append, segment_length]; omega
    · simp only [List.length_append, segment_length]; omega
    · have hadd := segment_add b.byte 0 (size - w % size) (m - (size - w % size))
      rw [Nat.add_sub_cancel' hm.le, Nat.zero_add] at hadd
      rw [← hadd, List.take_of_length_le (by simp)]
  · refine (Triple.pure _).conseq (fun s h => ⟨_, ⟨?_, ?_, ?_⟩, h⟩) fun _ _ h => h
    · simpa using hm
    · simp only [segment_length]; omega
    · exact segment_take _ _ _ _ (by omega)

private theorem cbufCommit_safe (hs : IsSize size) {nomem : Prop} {ptr : Ptr} {n m : Nat} {data : List UInt8}
    (hcopy : WriterTriple V (Writing V w tmp n bs)
      (if ptr = (if tmp.isSome then .writeDataTmp else .null) then copyFromTmp size m else pure ())
      fun _ s => ∃ bs, (m ≤ bs.length ∧ bs.length ≤ n ∧ bs.take m = data) ∧ Writing V w tmp n bs s)
    (hdata : data.length = m) (hst : WriterStep size oom s t) (h : Writing V w tmp n bs t) :
    Safe V.rely (WriterStep size oom) oom (WriteOutcome V nomem n data) (cbufCommit size ptr m) s t := by
  unfold cbufCommit
  split
  · obtain rfl : data = [] := List.eq_nil_of_length_eq_zero (by omega)
    obtain ⟨v, hv, hle⟩ := h.room
    exact ⟨hst.adds, v, hst.used ▸ hv, hle⟩
  · have hwork : WriterTriple V (Writing V w tmp n bs) (copyIfTmp size ptr m) fun _ s =>
        ∃ bs, (m ≤ bs.length ∧ bs.length ≤ n ∧ bs.take m = data) ∧ Writing V w tmp n bs s := by
      refine writer_tmpPtr.bind fun q => Triple.given fun hq => ?_
      rw [hq]
      exact hcopy
    refine hwork.andThen hst h fun _ t₀ t hst' hw => ?_
    obtain ⟨bs', ⟨hm, hb, rfl⟩, hw⟩ := hw
    exact writer_advance hs hm hb hst' hw

/-- A reservation, the caller's own stores and the commit, as one call. -/
theorem reserveCommit_safe (hs : IsSize size) (hsmall : oom ∨ size ≤ 2 ^ 29) {alloc : Alloc}
    (halloc : alloc = none → oom) {n m : Nat} {data : List UInt8} (hdata : data.length ≤ n)
    (hm : m ≤ data.length) (h : Ok size oom s) :
    Safe V.rely (WriterStep size oom) oom (WriteOutcome V (alloc = none) n (data.take m))
      (reserveCommit size alloc n data m) s s := by
  have hlen : (data.take m).length = m := List.length_take_of_le hm
  refine (cbufReserve_triple hs hsmall halloc n).andThen (.refl s) ⟨h, rfl, rfl⟩ fun r t₀ t hst hr => ?_
  cases hr with
  | direct tmp hfit hw =>
    have hroom := hw.fits
    refine (writer_storeData hs data (Nat.mod_modEq s.wrPtr size) (by omega) (by simpa using hdata)).andThen
      hst hw fun _ u₀ u hst' hw' => cbufCommit_safe hs ?_ hlen hst' hw'
    rw [if_neg (by cases tmp <;> simp)]
    exact (Triple.pure _).conseq (fun _ h => ⟨data, ⟨hm, hdata, rfl⟩, h⟩) fun _ _ h => h
  | temporary b hfit hb hw =>
    have hroom := hw.fits
    refine (writer_storeTmp (hb.imp id hdata.trans)).andThen hst hw fun _ u₀ u hst' hw' => ?_
    obtain ⟨b', hb', hw'⟩ := hw'
    refine cbufCommit_safe hs ?_ hlen hst' hw'
    rw [Option.isSome_some, if_pos rfl, if_pos rfl]
    exact writer_copyFromTmp hs hfit (by omega) (hm.trans hdata) (by rwa [Block.store_len hb'])
      (Block.store_load hb' hm)
  | null ho =>
    rw [if_pos rfl, safe_bind]
    exact (safe_atomic _ _ _ _).mpr ⟨hst, fun u _ => ⟨.refl u, ho⟩⟩
  | full p v hv hlt => exact ⟨hst.adds, v, hv, hlt⟩
  | failed p ha => exact ⟨hst.adds, ha⟩

end
end Glip.CircularBuffer
