import Glip.CircularBuffer.Contents

/-! The functions of the read side, called by the only reader of a buffer while
the writer may move. The reader sees a fill level that is never too large. -/
namespace Glip.CircularBuffer
open Foundation Prog

/-- What the reader relies on: the writer only adds bytes. -/
structure ReaderRely (size : Nat) (oom : Prop) (s t : Cbuf) : Prop where
  rd : t.rdPtr = s.rdPtr
  hint : t.hintMaxReadSize = s.hintMaxReadSize
  tmpSize : t.readDataTmpSize = s.readDataTmpSize
  tmp : t.readDataTmp = s.readDataTmp
  contents : contents size s <+: contents size t
  ok : Ok size oom s → Ok size oom t

structure ReaderTakes (size : Nat) (oom : Prop) (n : Nat) (s t : Cbuf) : Prop where
  wr : t.wrPtr = s.wrPtr
  data : t.data = s.data
  hint : t.hintMaxWriteSize = s.hintMaxWriteSize
  tmpSize : t.writeDataTmpSize = s.writeDataTmpSize
  tmp : t.writeDataTmp = s.writeDataTmp
  contents : contents size t = (contents size s).drop n
  ok : Ok size oom s → Ok size oom t

structure ReaderStep (size : Nat) (oom : Prop) (s t : Cbuf) : Prop extends ReaderTakes size oom 0 s t where
  rd : t.rdPtr = s.rdPtr

/-- The bytes at a read pointer lie in one piece, or the end of the array is less than 2 ^ 31 bytes away from it. -/
def Near (size rd n : Nat) : Prop := rd % size + n ≤ size ∨ size - rd % size < 2 ^ 31

/-- How the writer moves meanwhile, and what a level that the reader has read
says about the bytes in the buffer. A level that straddles the moment at which
the buffer becomes full is 0. -/
structure ReaderView (size : Nat) (oom : Prop) where
  rely : Cbuf → Cbuf → Prop
  level : Nat → Nat → Prop
  within : ∀ s t, rely s t → ReaderRely size oom s t
  still : ∀ s, rely s s
  trans : ∀ s t u, rely s t → rely t u → rely s u
  refl : ∀ u, level u u
  le : ∀ v u, level v u → v ≤ u
  mono : ∀ v s t, rely s t → level v (used size s) → level v (used size t)
  torn : ∀ s t, rely s t → used size s < size → used size t = size → level 0 size

section
variable {size : Nat} {oom : Prop}

theorem ReaderRely.used {s t : Cbuf} (h : ReaderRely size oom s t) : used size s ≤ used size t := by
  simpa using h.contents.length_le

theorem ReaderRely.refl (s : Cbuf) : ReaderRely size oom s s :=
  ⟨rfl, rfl, rfl, rfl, List.prefix_rfl, id⟩

theorem ReaderRely.trans {s t u : Cbuf} (h : ReaderRely size oom s t) (h' : ReaderRely size oom t u) :
    ReaderRely size oom s u :=
  ⟨h'.rd.trans h.rd, h'.hint.trans h.hint, h'.tmpSize.trans h.tmpSize, h'.tmp.trans h.tmp,
    h.contents.trans h'.contents, h'.ok ∘ h.ok⟩

theorem ReaderTakes.used {n : Nat} {s t : Cbuf} (h : ReaderTakes size oom n s t) :
    used size t = used size s - n := by
  simpa using congrArg List.length h.contents

theorem ReaderStep.refl (s : Cbuf) : ReaderStep size oom s s := ⟨⟨rfl, rfl, rfl, rfl, rfl, rfl, id⟩, rfl⟩

instance : Std.Refl (ReaderStep size oom) := ⟨.refl⟩

theorem ReaderStep.trans {s t u : Cbuf} (h : ReaderStep size oom s t) (h' : ReaderStep size oom t u) :
    ReaderStep size oom s u :=
  ⟨⟨h'.wr.trans h.wr, h'.data.trans h.data, h'.hint.trans h.hint, h'.tmpSize.trans h.tmpSize,
    h'.tmp.trans h.tmp, h'.contents.trans h.contents, h'.ok ∘ h.ok⟩, h'.rd.trans h.rd⟩

theorem near_of_lt {rd n : Nat} (h : n ≤ size → n < 2 ^ 31) (hn : n ≤ size) : Near size rd n := by
  have := h hn
  unfold Near
  omega

/-- Where nothing is promised of the temporary buffer the reader may write it as it likes. -/
theorem readerStep_tmp (ho : oom) (s : Cbuf) (k : Nat) (tmp : Option Block) :
    ReaderStep size oom s { s with readDataTmpSize := k, readDataTmp := tmp } :=
  ⟨⟨rfl, rfl, rfl, rfl, rfl, by rw [List.drop_zero]; rfl, fun h => ⟨h.wr, h.rd, h.fill, h.len, .inl ho, .inl ho⟩⟩, rfl⟩

theorem copyToReadTmp_keeps (ho : oom) (dst off k : Nat) : (copyToReadTmp dst off k).Keeps (ReaderStep size oom) := by
  refine .atomic .refl fun s _ _ h => ?_
  obtain ⟨_, -, h⟩ := Option.bind_eq_some_iff.mp h
  obtain ⟨_, -, h⟩ := Option.bind_eq_some_iff.mp h
  obtain ⟨_, -, h⟩ := Option.bind_eq_some_iff.mp h
  cases h
  exact readerStep_tmp ho s _ _

def ReaderView.shared (size : Nat) (oom : Prop) : ReaderView size oom where
  rely := ReaderRely size oom
  level v u := v ≤ u
  within _ _ h := h
  still := ReaderRely.refl
  trans _ _ _ := ReaderRely.trans
  refl _ := le_rfl
  le _ _ h := h
  mono _ _ _ h hl := hl.trans h.used
  torn _ _ _ _ _ := Nat.zero_le _

def ReaderView.alone (size : Nat) (oom : Prop) : ReaderView size oom where
  rely := Eq
  level := Eq
  within s t h := by subst h; exact .refl s
  still _ := rfl
  trans _ _ _ := Eq.trans
  refl _ := rfl
  le v u h := h.le
  mono v s t h hl := by subst h; exact hl
  torn s t h hlt heq := by subst h; omega

private theorem known_append {s : Cbuf} {as : List UInt8} {k : Nat} (h : as <+: contents size s) :
    as ++ ((contents size s).drop as.length).take k <+: contents size s := by
  obtain ⟨bs, hbs⟩ := h
  rw [← hbs, List.drop_left, List.prefix_append_right_inj]
  exact List.take_prefix _ _

variable (V : ReaderView size oom)

/-- The reader at work: its read pointer is `r` and its temporary buffer `tmp`,
it has found `n` bytes, and the oldest of them are `bs`. -/
structure Reading (r : Nat) (tmp : Option Block) (n : Nat) (bs : List UInt8) (s : Cbuf) : Prop where
  ok : Ok size oom s
  rd : s.rdPtr = r
  tmp : s.readDataTmp = tmp
  level : ∃ v, V.level v (used size s) ∧ n ≤ v
  known : bs <+: contents size s

abbrev ReaderTriple {α : Type} (P : Cbuf → Prop) (p : Prog Cbuf α) (Q : α → Cbuf → Prop) : Prop :=
  Triple V.rely (ReaderStep size oom) oom P p Q

variable {V} {r n : Nat} {tmp : Option Block} {as bs : List UInt8} {s t : Cbuf}

theorem Reading.fits (h : Reading V r tmp n bs s) : n ≤ used size s := by
  obtain ⟨v, hv, hle⟩ := h.level
  exact hle.trans (V.le _ _ hv)

theorem Reading.stable : Stable V.rely (Reading V r tmp n bs) := fun s t h hs =>
  have hr := V.within s t h
  have ⟨v, hv, hle⟩ := hs.level
  ⟨hr.ok hs.ok, hr.rd.trans hs.rd, hr.tmp.trans hs.tmp, ⟨v, V.mono v s t h hv, hle⟩, hs.known.trans hr.contents⟩

private def AtRd (size : Nat) (oom : Prop) (r : Nat) (tmp : Option Block) (s : Cbuf) : Prop :=
  Ok size oom s ∧ s.rdPtr = r ∧ s.readDataTmp = tmp

private theorem atRd_stable : Stable V.rely (AtRd size oom r tmp) := fun s t h hs =>
  have hr := V.within s t h
  ⟨hr.ok hs.1, hr.rd.trans hs.2.1, hr.tmp.trans hs.2.2⟩

/-- A load of the read pointer, which is the reader's own. -/
private theorem reader_loadRd {α : Type} {P : Cbuf → Prop} {Q : α → Cbuf → Prop} {f : Nat → Prog Cbuf α}
    (hP : Stable V.rely P) (hr : ∀ s, P s → s.rdPtr = r) (hf : ReaderTriple V P (f r) Q) :
    ReaderTriple V P (loadRd >>= f) Q := by
  have hload : ReaderTriple V P loadRd fun a s => a = r ∧ P s :=
    Triple.view .refl hP fun s hs => ⟨hr s hs, hs⟩
  refine hload.bind fun a => Triple.given fun ha => ?_
  rw [ha]
  exact hf

private def WasShort (V : ReaderView size oom) (s : Cbuf) : Prop := ∃ s₁, V.rely s₁ s ∧ used size s₁ < size

private theorem wasShort_stable : Stable V.rely (WasShort V) :=
  fun _ _ h ⟨s₁, hs₁, hlt⟩ => ⟨s₁, V.trans _ _ _ hs₁ h, hlt⟩

private theorem reader_isFull (hs : IsSize size) :
    ReaderTriple V (AtRd size oom r tmp) (isFull size) fun full s =>
      AtRd size oom r tmp s ∧ if full then V.level size (used size s) else WasShort V s := by
  have hwr : ReaderTriple V (AtRd size oom r tmp) loadWr fun wr s => AtRd size oom r tmp s ∧
      if wr = r ^^^ size then V.level size (used size s) else WasShort V s := by
    refine Triple.view .refl atRd_stable ?_
    rintro s ⟨hok, rfl, htmp⟩
    refine ⟨⟨hok, rfl, htmp⟩, ?_⟩
    have hfull := full_iff hs hok.wr hok.rd
    split
    · rw [used, hfull.mp ‹_›]
      exact V.refl size
    · exact ⟨s, V.still s, lt_of_le_of_ne hok.fill fun h => ‹¬_› (hfull.mpr h)⟩
  refine hwr.bind fun wr => ?_
  refine reader_loadRd (fun s t h hs => ⟨atRd_stable s t h hs.1, ?_⟩) (fun s h => h.1.2.1) ?_
  · by_cases hw : wr = r ^^^ size
    · simpa only [hw, if_true] using V.mono _ s t h (by simpa only [hw, if_true] using hs.2)
    · simpa only [hw, if_false] using wasShort_stable s t h (by simpa only [hw, if_false] using hs.2)
  · refine (Triple.pure _).conseq (fun s h => ?_) fun _ _ h => h
    exact ⟨h.1, by simpa using h.2⟩

private theorem reader_fillLevel (hs : IsSize size) :
    ReaderTriple V (AtRd size oom r tmp) (fillLevel size) fun v s =>
      AtRd size oom r tmp s ∧ V.level v (used size s) := by
  have hwr : ReaderTriple V (fun s => AtRd size oom r tmp s ∧ WasShort V s) loadWr fun wr s =>
      AtRd size oom r tmp s ∧ V.level (levelOf size wr r) (used size s) := by
    refine Triple.view .refl (fun s t h hs => ⟨atRd_stable s t h hs.1, wasShort_stable s t h hs.2⟩) ?_
    rintro s ⟨⟨hok, rfl, htmp⟩, s₁, hs₁, hlt⟩
    refine ⟨⟨hok, rfl, htmp⟩, ?_⟩
    rw [levelOf_eq hs hok.wr hok.rd hok.fill]
    split
    · rename_i hfull
      rw [used, hfull]
      exact V.torn s₁ s hs₁ hlt hfull
    · exact V.refl _
  refine (reader_isFull hs).bind fun full => Triple.ite (fun hf => ?_) fun hf => ?_
  · refine (Triple.pure size).conseq (fun s h => ?_) fun _ _ h => h
    exact ⟨h.1, by simpa [hf] using h.2⟩
  · refine (hwr.bind fun wr => reader_loadRd ?_ (fun s h => h.1.2.1) ?_).conseq
      (fun s h => ⟨h.1, by simpa [hf] using h.2⟩) fun _ _ h => h
    · exact fun s t h hs => ⟨atRd_stable s t h hs.1, V.mono _ s t h hs.2⟩
    · exact fun _ s hs h => ⟨hs, h⟩

/-- A load behind the bytes that are known already. -/
private theorem reader_loadData {off k : Nat} (ho : off ≡ r + as.length [MOD size]) (hoff : off + k ≤ size)
    (hn : as.length + k ≤ n) :
    ReaderTriple V (Reading V r tmp n as) (loadData off k) fun bs s =>
      bs.length = k ∧ Reading V r tmp n (as ++ bs) s := by
  refine Triple.atomic Reading.stable fun s h => ?_
  have hfits := h.fits
  obtain ⟨hok, rfl, htmp, hlevel, hknown⟩ := h
  rw [load_contents hok ho hoff (by omega)]
  refine ⟨.refl s, ?_, hok, rfl, htmp, hlevel, known_append hknown⟩
  simp only [List.length_take, List.length_drop, contents_length]
  omega

/-- What is left of it when the reader has taken steps of its own. -/
private theorem Reading.step (hst : ReaderStep size oom s t) (h : Reading V r tmp n bs s) :
    Reading V r t.readDataTmp n bs t := by
  have hc : contents size t = contents size s := hst.contents
  have hu : used size t = used size s := hst.used
  exact ⟨hst.ok h.ok, hst.rd.trans h.rd, rfl, hu ▸ h.level, hc ▸ h.known⟩

/-- Steps of the reader of which nothing is known but that they take nothing. -/
private theorem reader_keeps {α : Type} {p : Prog Cbuf α} (hp : p.Keeps (ReaderStep size oom)) (ho : oom) :
    ReaderTriple V (fun s => ∃ tmp, Reading V r tmp n [] s) p fun _ s => ∃ tmp, Reading V r tmp n [] s :=
  Triple.of_keeps hp ho (fun s t h ⟨tmp, hr⟩ => ⟨tmp, Reading.stable s t h hr⟩) fun _ _ hst ⟨_, hr⟩ => ⟨_, hr.step hst⟩

private theorem reader_copyOut (hs : IsSize size) (hnear : Near size r n) (hn : n ≤ size) :
    ReaderTriple V (Reading V r tmp n []) (copyOut size n) fun bs s =>
      bs.length = n ∧ Reading V r tmp n bs s := by
  have hlt := Nat.mod_lt r hs.pos
  have hle := hs.le
  refine reader_loadRd Reading.stable (fun s h => h.rd) ?_
  rw [index_eq hs, sizeAdd_eq (by omega)]
  refine Triple.ite (fun hfit => ?_) fun hfit => ?_
  · refine reader_loadRd Reading.stable (fun s h => h.rd) ?_
    rw [index_eq hs]
    exact reader_loadData (Nat.mod_modEq r size) hfit (by simp)
  · refine reader_loadRd Reading.stable (fun s h => h.rd) ?_
    refine reader_loadRd Reading.stable (fun s h => h.rd) ?_
    obtain ⟨hend, hrest⟩ := sizeToEnd_eq (p := r % size) (by omega) hlt.le (hnear.resolve_left hfit)
    rw [index_eq hs, hend, hrest n (by omega) (by omega)]
    refine (reader_loadData (Nat.mod_modEq r size) (by omega) (by simp; omega)).bind fun atEnd =>
      Triple.given fun hend => ?_
    refine (reader_loadData (wrap_modEq hs (by simpa using hend)) (by omega) (by simp; omega)).bind
      fun atStart => (Triple.pure _).conseq ?_ fun _ _ h => h
    rintro s ⟨hstart, h⟩
    exact ⟨by simp; omega, by simpa using h⟩

variable (V) in
def ReadLevel (nomem : Prop) (n : Nat) (s₀ s : Cbuf) : Rc → Prop
  | .ok => ∃ v, V.level v (used size s₀) ∧ n ≤ v
  | .einval => ∃ v, V.level v (used size s) ∧ v < n
  | .enomem => nomem

variable (V) in
/-- How a call that wants `n` bytes and takes `k` of them ends: the level it saw
decides whether it takes anything. -/
structure ReadOutcome (nomem : Prop) (n k : Nat) (rc : Rc) (s₀ s : Cbuf) : Prop where
  takes : ReaderTakes size oom (if rc = .ok then k else 0) s₀ s
  level : ReadLevel V nomem n s₀ s rc

def yielded (rc : Rc) (bs : List UInt8) : List UInt8 := if rc = .ok then bs else []

private theorem reader_advance (hs : IsSize size) {α : Type} {fin : α → Cbuf → Cbuf → Prop} {a : α}
    (hst : ReaderStep size oom s t) (h : Reading V r tmp n bs t)
    (hfin : ∀ u u', Reading V r tmp n bs u → ReaderTakes size oom n u u' → fin a u u') :
    Safe V.rely (ReaderStep size oom) oom fin (advanceRd size n >>= fun _ => pure a) s t := by
  rw [safe_bind]
  refine (safe_atomic _ _ _ _).mpr ⟨hst, fun u hu => ?_⟩
  have hr := Reading.stable t u hu h
  have hadv := advanceRd_contents hs hr.ok hr.fits
  exact hfin u _ hr ⟨rfl, rfl, rfl, rfl, rfl, hadv.2, fun _ => hadv.1⟩

/-- `cbuf_read` returns the oldest bytes, in order, unless they wrap far before the end of the array. -/
theorem cbufRead_safe (hs : IsSize size) (n : Nat) (hend : oom ∨ (n ≤ size → Near size s.rdPtr n)) (h : Ok size oom s) :
    Safe V.rely (ReaderStep size oom) oom
      (fun r s₀ s => ReadOutcome V False n n r.1 s₀ s ∧
        ((r.1 = .ok → Near size s₀.rdPtr n) → r.2 = yielded r.1 ((contents size s₀).take n)))
      (cbufRead size n) s s := by
  unfold cbufRead
  split
  · rename_i hn
    subst hn
    exact ⟨⟨(ReaderStep.refl s).toReaderTakes, _, V.refl _, Nat.zero_le _⟩, fun _ => by simp [yielded]⟩
  · refine (reader_fillLevel hs).andThen (.refl s) ⟨h, rfl, rfl⟩ fun v t₀ t hst ⟨⟨hok, hrd, htmp⟩, hv⟩ => ?_
    split
    · exact ⟨⟨hst.toReaderTakes, v, hv, ‹_›⟩, fun _ => rfl⟩
    · have hw : Reading V s.rdPtr s.readDataTmp n [] t := ⟨hok, hrd, htmp, ⟨v, hv, by omega⟩, List.nil_prefix⟩
      have hn : n ≤ size := hw.fits.trans hok.fill
      by_cases hnear : Near size s.rdPtr n
      · refine (reader_copyOut hs hnear hn).andThen hst hw fun bs u₀ u hst' ⟨hlen, hw'⟩ => ?_
        refine reader_advance hs hst' hw' fun w w' hr ht => ⟨⟨ht, hr.level⟩, fun _ => ?_⟩
        rw [yielded, if_pos rfl, ← hlen]
        exact List.prefix_iff_eq_take.mp hr.known
      · have ho : oom := hend.resolve_right fun h => hnear (h hn)
        refine (reader_keeps (copyOut_keeps n) ho).andThen hst ⟨_, hw⟩ fun bs u₀ u hst' ⟨tmp, hw'⟩ => ?_
        exact reader_advance hs hst' hw' fun w w' hr ht => ⟨⟨ht, hr.level⟩, fun h => (hnear (hr.rd ▸ h rfl)).elim⟩

/-- Fewer than 2 ^ 31 bytes never do. -/
theorem cbufRead_bytes (hs : IsSize size) (n : Nat) (hsmall : n ≤ size → n < 2 ^ 31) (h : Ok size oom s) :
    Safe V.rely (ReaderStep size oom) oom
      (fun r s₀ s => ReadOutcome V False n n r.1 s₀ s ∧ r.2 = yielded r.1 ((contents size s₀).take n))
      (cbufRead size n) s s := by
  have hread := (cbufRead_safe (V := V) hs n (.inr (near_of_lt hsmall)) h).within (J := Ok size oom)
    (fun s t hok (hst : V.rely s t) => ⟨hst, (V.within s t hst).ok hok⟩) (fun s t hok hst => hst.ok hok) h
  refine hread.mono fun r s₀ s ⟨⟨ho, hbs⟩, hok⟩ => ⟨ho, hbs fun hrc => near_of_lt hsmall ?_⟩
  have hlevel := ho.level
  rw [hrc] at hlevel
  obtain ⟨v, hv, hle⟩ := hlevel
  exact hle.trans ((V.le _ _ hv).trans hok.fill)

theorem cbufDiscard_safe (hs : IsSize size) (n : Nat) (h : Ok size oom s) :
    Safe V.rely (ReaderStep size oom) oom (ReadOutcome V False n n) (cbufDiscard size n) s s := by
  refine (reader_fillLevel hs).andThen (.refl s) ⟨h, rfl, rfl⟩ fun v t₀ t hst ⟨⟨hok, hrd, htmp⟩, hv⟩ => ?_
  split
  · exact ⟨hst.toReaderTakes, v, hv, ‹_›⟩
  · have hw : Reading V s.rdPtr s.readDataTmp n [] t := ⟨hok, hrd, htmp, ⟨v, hv, by omega⟩, List.nil_prefix⟩
    exact reader_advance hs hst hw fun w w' hr ht => ⟨ht, hr.level⟩

theorem fillLevel_safe (hs : IsSize size) (h : Ok size oom s) :
    Safe V.rely (ReaderStep size oom) oom
      (fun v s₀ s => ReaderStep size oom s₀ s ∧ V.level v (used size s)) (fillLevel size) s s :=
  (reader_fillLevel hs s s (.refl s) ⟨h, rfl, rfl⟩).mono fun _ _ _ hv => ⟨hv.1, hv.2.2⟩

theorem setHintMaxReadSize_safe (hint : Nat) (s : Cbuf) :
    Safe V.rely (ReaderStep size oom) oom (fun _ s₀ s => ReaderStep size oom s₀ s)
      (setHintMaxReadSize hint) s s :=
  (safe_atomic _ _ _ _).mpr ⟨.refl s, fun _ _ => ⟨⟨rfl, rfl, rfl, rfl, rfl, rfl,
    fun h => ⟨h.wr, h.rd, h.fill, h.len, h.writeTmp, h.readTmp⟩⟩, rfl⟩⟩

private theorem reader_grow (hsmall : oom ∨ size ≤ 2 ^ 29) {alloc : Alloc} (halloc : alloc = none → oom) :
    ReaderTriple V (Reading V r tmp n []) (growReadTmp size alloc n) fun ok s =>
      if ok then ∃ tmp, (oom ∨ n ≤ capacity tmp) ∧ Reading V r tmp n [] s else alloc = none := by
  refine Triple.atomic Reading.stable fun s h => ?_
  have hfits := h.fits
  obtain ⟨hok, rfl, rfl, hlevel, hknown⟩ := h
  have hfill := hok.fill
  split
  · rename_i hlt
    have hnew : oom ∨ n ≤ if n ≤ s.hintMaxReadSize then s.hintMaxReadSize else calcBufsize n size := by
      refine hsmall.imp_right fun hsmall => ?_
      split
      · assumption
      · exact le_calcBufsize (by omega) (by omega) (by omega)
    generalize (if n ≤ s.hintMaxReadSize then s.hintMaxReadSize else calcBufsize n size) = newSize at hnew ⊢
    cases alloc with
    | none =>
      refine ⟨⟨⟨rfl, rfl, rfl, rfl, rfl, rfl, fun hok => ?_⟩, rfl⟩, rfl⟩
      exact ⟨hok.wr, hok.rd, hok.fill, hok.len, hok.writeTmp, .inl (halloc rfl)⟩
    | some junk =>
      have hok' (hok : Ok size oom s) : Ok size oom { s with
          readDataTmpSize := newSize, readDataTmp := some (.realloc s.readDataTmp newSize junk) } :=
        ⟨hok.wr, hok.rd, hok.fill, hok.len, hok.writeTmp, .inr le_rfl⟩
      refine ⟨⟨⟨rfl, rfl, rfl, rfl, rfl, rfl, hok'⟩, rfl⟩, ?_⟩
      simp only [Option.map_some, Option.isSome_some, if_true]
      exact ⟨some (.realloc s.readDataTmp newSize junk), hnew, hok' hok, rfl, rfl, hlevel, hknown⟩
  · refine ⟨.refl s, s.readDataTmp, hok.readTmp.imp id fun hle => ?_, hok, rfl, rfl, hlevel, hknown⟩
    omega

/-- A copy into the temporary buffer behind the bytes that it holds already. -/
private theorem reader_copyToReadTmp (as : List UInt8) {b : Block} {off k : Nat} (ho : off ≡ r + as.length [MOD size])
    (hoff : off + k ≤ size) (hn : as.length + k ≤ n) (hb : oom ∨ n ≤ b.len)
    (hload : b.load 0 as.length = some as) :
    ReaderTriple V (Reading V r (some b) n as) (copyToReadTmp as.length off k) fun _ s =>
      ∃ b' bs, (b'.len = b.len ∧ bs.length = as.length + k ∧ b'.load 0 bs.length = some bs) ∧
        Reading V r (some b') n bs s := by
  refine Triple.atomic Reading.stable fun s h => ?_
  have hfits := h.fits
  obtain ⟨hok, rfl, htmp, hlevel, hknown⟩ := h
  rw [load_contents hok ho hoff (by omega), htmp]
  have hlen : (((contents size s).drop as.length).take k).length = k := by
    simp only [List.length_take, List.length_drop, contents_length]
    omega
  have hk := known_append (k := k) hknown
  generalize ((contents size s).drop as.length).take k = bs at hlen hk ⊢
  subst hlen
  simp only [Option.bind_eq_bind, Option.bind_some]
  cases hst : b.store as.length bs with
  | none =>
    refine ⟨.refl s, hb.elim id fun hle => ?_⟩
    rw [Block.store, if_pos (hn.trans hle)] at hst
    cases hst
  | some b' =>
    have hlen' := Block.store_len hst
    have hok' (hok : Ok size oom s) : Ok size oom { s with readDataTmp := some b' } := by
      refine ⟨hok.wr, hok.rd, hok.fill, hok.len, hok.writeTmp, hok.readTmp.imp id fun hle => ?_⟩
      simpa [capacity, htmp, hlen'] using hle
    refine ⟨⟨⟨rfl, rfl, rfl, rfl, rfl, rfl, hok'⟩, rfl⟩, b', as ++ bs, ⟨hlen', by simp, ?_⟩, ?_⟩
    · rw [List.length_append]
      exact Block.store_append hst hload
    · exact ⟨hok' hok, rfl, rfl, hlevel, hk⟩

private theorem reader_copyToNull (ho : oom) {dst off k : Nat} :
    ReaderTriple V (Reading V r none n as) (copyToReadTmp dst off k) fun _ _ => False := by
  refine Triple.atomic Reading.stable fun s h => ?_
  have hnone : (do
      let bs ← s.data.load off k
      let tmp ← s.readDataTmp
      let tmp ← tmp.store dst bs
      pure ((), { s with readDataTmp := some tmp }) : Option (Unit × Cbuf)) = none := by
    rw [h.tmp]
    cases s.data.load off k <;> rfl
  rw [hnone]
  exact ⟨.refl s, ho⟩

private theorem reader_copyToTmp (hs : IsSize size) (hnear : size - r % size < 2 ^ 31) (hn : n ≤ size)
    (hfit : ¬r % size + n ≤ size) (hcap : oom ∨ n ≤ capacity tmp) :
    ReaderTriple V (Reading V r tmp n []) (copyToTmp size n) fun _ s =>
      ∃ b bs, (bs.length = n ∧ b.load 0 n = some bs) ∧ Reading V r (some b) n bs s := by
  have hlt := Nat.mod_lt r hs.pos
  have hle := hs.le
  refine reader_loadRd Reading.stable (fun s h => h.rd) ?_
  refine reader_loadRd Reading.stable (fun s h => h.rd) ?_
  obtain ⟨hend, hrest⟩ := sizeToEnd_eq (p := r % size) (by omega) hlt.le hnear
  rw [index_eq hs, hend, hrest n (by omega) (by omega)]
  cases tmp with
  | none =>
    have ho : oom := hcap.elim id fun h => by simp [capacity] at h; omega
    exact (reader_copyToNull ho).bind fun _ _ _ _ h => h.elim
  | some b =>
    refine (reader_copyToReadTmp [] (Nat.mod_modEq r size) (by omega) (by simp; omega) hcap
      b.load_nil).bind fun _ => Triple.exists_ fun b' => Triple.exists_ fun bs => Triple.given fun h => ?_
    obtain ⟨hlen, hbs, hload⟩ := h
    rw [List.length_nil, Nat.zero_add] at hbs
    rw [← hbs]
    refine (reader_copyToReadTmp bs (wrap_modEq hs hbs) (by omega) (by omega) (hcap.imp id fun h => ?_) hload).conseq
      (fun _ h => h) fun _ s h => ?_
    · rw [hlen]
      exact h
    · obtain ⟨b'', bs', ⟨-, hbs', hload'⟩, h⟩ := h
      have hall : bs'.length = n := by omega
      exact ⟨b'', bs', ⟨hall, hall ▸ hload'⟩, h⟩

private inductive Peeked (V : ReaderView size oom) (alloc : Alloc) (r n : Nat) (s : Cbuf) :
    Rc × Option Ptr → Prop where
  | empty : n = 0 → Peeked V alloc r n s (.ok, none)
  | direct (tmp : Option Block) : r % size + n ≤ size → Reading V r tmp n [] s →
      Peeked V alloc r n s (.ok, some (.data (r % size)))
  | temporary (b : Block) (bs : List UInt8) : bs.length = n → b.load 0 n = some bs →
      Reading V r (some b) n bs s → Peeked V alloc r n s (.ok, some .readDataTmp)
  | far (tmp : Option Block) (ptr : Ptr) : oom → ¬Near size r n → Reading V r tmp n [] s →
      Peeked V alloc r n s (.ok, some ptr)
  | short (v : Nat) : V.level v (used size s) → v < n → Peeked V alloc r n s (.einval, none)
  | failed : alloc = none → Peeked V alloc r n s (.enomem, none)

private theorem reader_tmpPtr :
    ReaderTriple V (Reading V r tmp n bs) readTmpPtr fun ptr s =>
      ptr = (if tmp.isSome then .readDataTmp else .null) ∧ Reading V r tmp n bs s := by
  refine Triple.view .refl Reading.stable fun s h => ⟨?_, h⟩
  rw [h.tmp]

private theorem cbufPeek_triple (hs : IsSize size) (hsmall : oom ∨ size ≤ 2 ^ 29)
    (hend : oom ∨ (n ≤ size → Near size r n)) {alloc : Alloc} (halloc : alloc = none → oom) :
    ReaderTriple V (AtRd size oom r tmp) (cbufPeek size alloc n) fun p s => Peeked V alloc r n s p := by
  have hlt := Nat.mod_lt r hs.pos
  have hle := hs.le
  refine Triple.ite (fun h₀ => (Triple.pure _).conseq (fun _ _ => .empty h₀) fun _ _ h => h) fun h₀ => ?_
  refine (reader_fillLevel hs).bind fun v => Triple.ite (fun hv => ?_) fun hv => ?_
  · exact (Triple.pure _).conseq (fun s h => .short v h.2 hv) fun _ _ h => h
  refine Triple.conseq (Triple.given fun hn : n ≤ size => ?_) (P := fun s => n ≤ size ∧ Reading V r tmp n [] s)
    (fun s h => ⟨?_, ?_⟩) fun _ _ h => h
  rotate_left
  · exact (Nat.le_of_not_lt hv).trans ((V.le _ _ h.2).trans h.1.1.fill)
  · exact ⟨h.1.1, h.1.2.1, h.1.2.2, ⟨v, h.2, Nat.le_of_not_lt hv⟩, List.nil_prefix⟩
  refine reader_loadRd Reading.stable (fun s h => h.rd) ?_
  rw [index_eq hs, sizeAdd_eq (by omega)]
  refine Triple.ite (fun hfit => ?_) fun hfit => ?_
  · refine reader_loadRd Reading.stable (fun s h => h.rd) ?_
    rw [index_eq hs]
    exact (Triple.pure _).conseq (fun s h => .direct tmp hfit h) fun _ _ h => h
  refine (reader_grow hsmall halloc).bind fun ok => Triple.ite (fun hk => ?_) fun hk => ?_
  · by_cases hnear : Near size r n
    · refine Triple.conseq (Triple.exists_ fun tmp => Triple.given fun hcap =>
        (reader_copyToTmp hs (hnear.resolve_left hfit) hn hfit hcap).bind fun _ => Triple.exists_ fun b =>
          Triple.exists_ fun bs => Triple.given fun hbs => reader_tmpPtr.bind fun ptr => Triple.given fun hptr => ?_)
        (fun s h => by simpa [hk] using h) fun _ _ h => h
      subst hptr
      exact (Triple.pure _).conseq (fun s h => .temporary b bs hbs.1 hbs.2 h) fun _ _ h => h
    · have ho : oom := hend.resolve_right fun h => hnear (h hn)
      refine ((reader_keeps (copyToTmp_keeps (copyToReadTmp_keeps ho) n) ho).bind fun _ =>
        (reader_keeps readTmpPtr_keeps ho).bind fun ptr => (Triple.pure (Rc.ok, some ptr)).conseq
          (fun s ⟨tmp, h⟩ => .far tmp ptr ho hnear h) fun _ _ h => h).conseq (fun s h => ?_) fun _ _ h => h
      obtain ⟨tmp, -, hr⟩ : ∃ tmp, (oom ∨ n ≤ capacity tmp) ∧ Reading V r tmp n [] s := by simpa [hk] using h
      exact ⟨tmp, hr⟩
  · exact (Triple.pure _).conseq (fun s h => .failed (by simpa [hk] using h)) fun _ _ h => h

/-- Bytes that are looked at through some pointer, which may crash. -/
private theorem loadThrough_safe (ho : oom) {alloc : Alloc} {ptr : Ptr} {m : Nat} (hst : ReaderStep size oom s t)
    (hw : Reading V r tmp n [] t) (hno : m ≤ n → ¬Near size r n) :
    Safe V.rely (ReaderStep size oom) oom
      (fun p s₀ s => ReadOutcome V (alloc = none) n 0 p.1 s₀ s ∧
        ((p.1 = .ok → m ≤ n ∧ Near size s₀.rdPtr n) → p.2 = yielded p.1 ((contents size s₀).take m)))
      (loadThrough ptr m >>= fun bs => pure (Rc.ok, bs)) s t := by
  refine (reader_keeps (loadThrough_keeps ptr m) ho).andThen hst ⟨_, hw⟩ fun bs u₀ u hst' ⟨tmp, hw'⟩ => ?_
  have hu : used size u = used size u₀ := hst'.used
  obtain ⟨v, hv, hle⟩ := hw'.level
  refine ⟨⟨hst'.toReaderTakes, v, hu ▸ hv, hle⟩, fun hgood => ?_⟩
  obtain ⟨hm, hnear⟩ := hgood rfl
  rw [← hst'.rd, hw'.rd] at hnear
  exact (hno hm hnear).elim

/-- Through the pointer of `cbuf_peek` the caller sees the oldest bytes, in order, unless they wrap far before the
end of the array. -/
theorem peekBytes_safe (hs : IsSize size) (hsmall : oom ∨ size ≤ 2 ^ 29) {alloc : Alloc}
    (halloc : alloc = none → oom) {m : Nat} (hend : oom ∨ m ≤ n ∧ (n ≤ size → Near size s.rdPtr n))
    (h : Ok size oom s) :
    Safe V.rely (ReaderStep size oom) oom
      (fun p s₀ s => ReadOutcome V (alloc = none) n 0 p.1 s₀ s ∧
        ((p.1 = .ok → m ≤ n ∧ Near size s₀.rdPtr n) → p.2 = yielded p.1 ((contents size s₀).take m)))
      (peekBytes size alloc n m) s s := by
  refine (cbufPeek_triple hs hsmall (hend.imp_right And.right) halloc).andThen (.refl s) ⟨h, rfl, rfl⟩
    fun p t₀ t hst hp => ?_
  have hstay (u : Cbuf) : ReaderTakes size oom 0 u u := (ReaderStep.refl u).toReaderTakes
  have hbeyond : ¬m ≤ n → oom := fun hm => hend.resolve_right fun h => hm h.1
  cases hp with
  | empty h₀ =>
    subst h₀
    refine ⟨⟨hst.toReaderTakes, _, V.refl _, Nat.zero_le _⟩, fun hgood => ?_⟩
    simp [yielded, Nat.le_zero.mp (hgood rfl).1]
  | direct tmp hfit hr =>
    by_cases hm : m ≤ n
    · refine (safe_bind _ _ _ _ _).mpr ((safe_atomic _ _ _ _).mpr ⟨hst, fun u hu => ?_⟩)
      have hr' := Reading.stable t u hu hr
      have hfits := hr'.fits
      have hoff : s.rdPtr % size ≡ u.rdPtr + 0 [MOD size] := hr'.rd ▸ Nat.mod_modEq s.rdPtr size
      have hload := load_contents hr'.ok (n := m) hoff (by omega) (by omega)
      rw [List.drop_zero] at hload
      dsimp only
      rw [hload]
      exact ⟨⟨hstay u, hr'.level⟩, fun _ => rfl⟩
    · exact loadThrough_safe (hbeyond hm) hst hr fun h => (hm h).elim
  | temporary b bs hlen hload hr =>
    by_cases hm : m ≤ n
    · refine (safe_bind _ _ _ _ _).mpr ((safe_atomic _ _ _ _).mpr ⟨hst, fun u hu => ?_⟩)
      have hr' := Reading.stable t u hu hr
      dsimp only
      rw [hr'.tmp, Option.bind_some, Block.load_take hload hm]
      refine ⟨⟨hstay u, hr'.level⟩, fun _ => ?_⟩
      rw [yielded, if_pos rfl, List.prefix_iff_eq_take.mp hr'.known, List.take_take, Nat.min_eq_left (by omega)]
    · exact loadThrough_safe (hbeyond hm) hst ⟨hr.ok, hr.rd, hr.tmp, hr.level, List.nil_prefix⟩ fun h => (hm h).elim
  | far tmp ptr ho hnear hr => exact loadThrough_safe ho hst hr fun _ => hnear
  | short v hv hlt => exact ⟨⟨hst.toReaderTakes, v, hv, hlt⟩, fun _ => rfl⟩
  | failed ha => exact ⟨⟨hst.toReaderTakes, ha⟩, fun _ => rfl⟩

end
end Glip.CircularBuffer
