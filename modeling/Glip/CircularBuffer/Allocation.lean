import Glip.CircularBuffer.Contents
import Glip.Foundation.GuardedRun

/-! What a circular buffer does when memory cannot be allocated. -/
namespace Glip.CircularBuffer
open Foundation Prog

inductive Call where
  | setHintMaxReadSize (hint : Nat)
  | setHintMaxWriteSize (hint : Nat)
  | isEmpty
  | isFull
  | fillLevel
  | freeLevel
  | write (data : List UInt8)
  | reserve (alloc : Alloc) (n : Nat)
  | store (ptr : Ptr) (data : List UInt8)
  | commit (ptr : Ptr) (n : Nat)
  | read (n : Nat)
  | peek (alloc : Alloc) (n : Nat)
  | load (ptr : Ptr) (n : Nat)
  | discard (n : Nat)

structure Reply where
  rc : Option Rc
  ptr : Option Ptr
  deriving DecidableEq

def call (size : Nat) : Call → Prog Cbuf Reply
  | .setHintMaxReadSize hint => setHintMaxReadSize hint >>= fun _ => pure ⟨none, none⟩
  | .setHintMaxWriteSize hint => setHintMaxWriteSize hint >>= fun _ => pure ⟨none, none⟩
  | .isEmpty => isEmpty >>= fun _ => pure ⟨none, none⟩
  | .isFull => isFull size >>= fun _ => pure ⟨none, none⟩
  | .fillLevel => fillLevel size >>= fun _ => pure ⟨none, none⟩
  | .freeLevel => freeLevel size >>= fun _ => pure ⟨none, none⟩
  | .write data => cbufWrite size data >>= fun rc => pure ⟨rc, none⟩
  | .reserve alloc n => cbufReserve size alloc n >>= fun r => pure ⟨r.1, if r.1 = .ok then r.2 else none⟩
  | .store ptr data => storeThrough ptr data >>= fun _ => pure ⟨none, none⟩
  | .commit ptr n => cbufCommit size ptr n >>= fun rc => pure ⟨rc, none⟩
  | .read n => cbufRead size n >>= fun r => pure ⟨r.1, none⟩
  | .peek alloc n => cbufPeek size alloc n >>= fun r => pure ⟨r.1, r.2⟩
  | .load ptr n => loadThrough ptr n >>= fun _ => pure ⟨none, none⟩
  | .discard n => cbufDiscard size n >>= fun rc => pure ⟨rc, none⟩

/-- `realloc` succeeds, and is not asked for less than the call needs: the power of two of
`_cbuf_calc_bufsize` is zero as an `int` from 2 ^ 31 bytes on. -/
def Grows (alloc : Alloc) (n hint : Nat) : Prop := alloc ≠ none ∧ (n ≤ hint ∨ n < 2 ^ 31)

def Call.Granted (size : Nat) (s : Cbuf) : Call → Prop
  | .reserve alloc n =>
    n ≤ sizeSub size (levelIn size s) → size < sizeAdd (index size s.wrPtr) n → s.writeDataTmpSize < n →
      Grows alloc n s.hintMaxWriteSize
  | .peek alloc n =>
    n ≤ levelIn size s → size < sizeAdd (index size s.rdPtr) n → s.readDataTmpSize < n →
      Grows alloc n s.hintMaxReadSize
  | _ => True

instance (alloc : Alloc) (n hint : Nat) : Decidable (Grows alloc n hint) := inferInstanceAs (Decidable (_ ∧ _))

instance (size : Nat) (s : Cbuf) : (c : Call) → Decidable (c.Granted size s)
  | .reserve alloc n => inferInstanceAs (Decidable (_ → _ → _ → Grows alloc n _))
  | .peek alloc n => inferInstanceAs (Decidable (_ → _ → _ → Grows alloc n _))
  | .setHintMaxReadSize _ | .setHintMaxWriteSize _ | .isEmpty | .isFull | .fillLevel | .freeLevel | .write _
  | .store _ _ | .commit _ _ | .read _ | .load _ _ | .discard _ => instDecidableTrue

def Ptr.room (size : Nat) (s : Cbuf) : Ptr → Nat
  | .data off => size - off
  | .writeDataTmp => capacity s.writeDataTmp
  | .readDataTmp => capacity s.readDataTmp
  | .null => 0

/-- The sizes recorded for the temporary buffers are allocated. -/
structure Backed (s : Cbuf) : Prop where
  write : s.writeDataTmpSize ≤ capacity s.writeDataTmp
  read : s.readDataTmpSize ≤ capacity s.readDataTmp

structure TmpKept (s t : Cbuf) : Prop where
  writeSize : t.writeDataTmpSize = s.writeDataTmpSize
  writeTmp : capacity t.writeDataTmp = capacity s.writeDataTmp
  readSize : t.readDataTmpSize = s.readDataTmpSize
  readTmp : capacity t.readDataTmp = capacity s.readDataTmp

section Kept
variable {size : Nat} {s t u : Cbuf}

theorem TmpKept.refl (s : Cbuf) : TmpKept s s := ⟨rfl, rfl, rfl, rfl⟩

instance : Std.Refl TmpKept := ⟨.refl⟩

theorem TmpKept.trans (h : TmpKept s t) (h' : TmpKept t u) : TmpKept s u :=
  ⟨h'.writeSize.trans h.writeSize, h'.writeTmp.trans h.writeTmp, h'.readSize.trans h.readSize,
    h'.readTmp.trans h.readTmp⟩

theorem TmpKept.backed (h : TmpKept s t) (hs : Backed s) : Backed t :=
  ⟨by rw [h.writeSize, h.writeTmp]; exact hs.write, by rw [h.readSize, h.readTmp]; exact hs.read⟩

private theorem atomic_keeps {α : Type} {f : Cbuf → Option (α × Cbuf)}
    (hf : ∀ s a t, f s = some (a, t) → TmpKept s t) : (Prog.atomic f).Keeps TmpKept := .atomic .refl hf

private theorem storeData_keeps (off : Nat) (bs : List UInt8) : (storeData off bs).Keeps TmpKept := by
  apply atomic_keeps
  intro s a t h
  obtain ⟨d, -, he⟩ := Option.map_eq_some_iff.mp h
  cases he
  exact ⟨rfl, rfl, rfl, rfl⟩

private theorem advanceWr_keeps (n : Nat) : (advanceWr size n).Keeps TmpKept := by
  apply atomic_keeps
  rintro s a t ⟨⟩
  exact ⟨rfl, rfl, rfl, rfl⟩

private theorem advanceRd_keeps (n : Nat) : (advanceRd size n).Keeps TmpKept := by
  apply atomic_keeps
  rintro s a t ⟨⟩
  exact ⟨rfl, rfl, rfl, rfl⟩

private theorem capacity_store {b b' : Block} {off : Nat} {bs : List UInt8} (h : b.store off bs = some b') :
    capacity (some b') = capacity (some b) := Block.store_len h

private theorem copyToReadTmp_keepsTmp (dst off n : Nat) : (copyToReadTmp dst off n).Keeps TmpKept := by
  apply atomic_keeps
  intro s a t h
  simp only [Option.bind_eq_bind, Option.bind_eq_some_iff] at h
  obtain ⟨bs, -, tmp, htmp, tmp', hstore, he⟩ := h
  cases he
  exact ⟨rfl, rfl, rfl, by rw [htmp, capacity_store hstore]⟩

private theorem storeThrough_keeps (ptr : Ptr) (bs : List UInt8) : (storeThrough ptr bs).Keeps TmpKept := by
  apply atomic_keeps
  intro s a t h
  cases ptr with
  | data off =>
    obtain ⟨d, -, he⟩ := Option.map_eq_some_iff.mp h
    cases he
    exact ⟨rfl, rfl, rfl, rfl⟩
  | writeDataTmp =>
    obtain ⟨b, hb, he⟩ := Option.map_eq_some_iff.mp h
    obtain ⟨tmp, htmp, hstore⟩ := Option.bind_eq_some_iff.mp hb
    cases he
    exact ⟨rfl, by rw [htmp, capacity_store hstore], rfl, rfl⟩
  | readDataTmp =>
    obtain ⟨b, hb, he⟩ := Option.map_eq_some_iff.mp h
    obtain ⟨tmp, htmp, hstore⟩ := Option.bind_eq_some_iff.mp hb
    cases he
    exact ⟨rfl, rfl, rfl, by rw [htmp, capacity_store hstore]⟩
  | null => cases h

private theorem sliceOf_keeps (bs : List UInt8) (off n : Nat) : (sliceOf bs off n).Keeps TmpKept := .ite (.pure _) .fault

private theorem cbufWrite_keeps (data : List UInt8) : (cbufWrite size data).Keeps TmpKept := by
  have hcopy : (copyIn size data).Keeps TmpKept := by
    refine loadWr_keeps.bind fun wr => .ite (loadWr_keeps.bind fun _ => storeData_keeps _ _) ?_
    exact loadWr_keeps.bind fun _ => loadWr_keeps.bind fun _ => (sliceOf_keeps _ _ _).bind fun _ =>
      (storeData_keeps _ _).bind fun _ => (sliceOf_keeps _ _ _).bind fun _ => storeData_keeps _ _
  exact freeLevel_keeps.bind fun _ => .ite (.pure _) (hcopy.bind fun _ => (advanceWr_keeps _).bind fun _ => .pure _)

private theorem cbufCommit_keeps (ptr : Ptr) (n : Nat) : (cbufCommit size ptr n).Keeps TmpKept := by
  have hcopy : (copyFromTmp size n).Keeps TmpKept := by
    refine loadWr_keeps.bind fun _ => loadWr_keeps.bind fun _ => (loadWriteTmp_keeps _ _).bind fun _ =>
      (storeData_keeps _ _).bind fun _ => .ite ?_ (.pure _)
    exact (loadWriteTmp_keeps _ _).bind fun _ => storeData_keeps _ _
  have hif : (copyIfTmp size ptr n).Keeps TmpKept := writeTmpPtr_keeps.bind fun _ => .ite hcopy (.pure _)
  exact .ite (.pure _) (hif.bind fun _ => (advanceWr_keeps _).bind fun _ => .pure _)

private theorem cbufRead_keeps (n : Nat) : (cbufRead size n).Keeps TmpKept :=
  .ite (.pure _) (fillLevel_keeps.bind fun _ => .ite (.pure _)
    ((copyOut_keeps n).bind fun _ => (advanceRd_keeps _).bind fun _ => .pure _))

private theorem cbufDiscard_keeps (n : Nat) : (cbufDiscard size n).Keeps TmpKept :=
  fillLevel_keeps.bind fun _ => .ite (.pure _) ((advanceRd_keeps _).bind fun _ => .pure _)

private theorem setHint_keeps (hint : Nat) :
    (setHintMaxReadSize hint).Keeps TmpKept ∧ (setHintMaxWriteSize hint).Keeps TmpKept := by
  constructor
  all_goals
    apply atomic_keeps
    rintro s a t ⟨⟩
    exact ⟨rfl, rfl, rfl, rfl⟩

end Kept

section Grown
variable {size n : Nat} {alloc : Alloc} {s t : Cbuf}

/-- A level request changes nothing, and the position of the pointer decides about the rest. -/
private theorem index_fits (hs : IsSize size) {p : Nat} (hn : n ≤ size) :
    index size p < size ∧ sizeAdd (index size p) n = index size p + n := by
  have hlt := Nat.mod_lt p hs.pos
  have hle := hs.le
  rw [index_eq hs, sizeAdd_eq (by omega)]
  exact ⟨hlt, rfl⟩

/-- A reallocation that is granted leaves as many bytes as are recorded, and as the call needs. -/
private theorem granted_size (hs : IsSize size) (h : Grows alloc n hint) (hpos : 0 < n) (hn : n ≤ size) :
    ∃ junk, alloc = some junk ∧ n ≤ if n ≤ hint then hint else calcBufsize n size := by
  obtain ⟨halloc, hsmall⟩ := h
  obtain ⟨junk, rfl⟩ := Option.ne_none_iff_exists'.mp halloc
  refine ⟨junk, rfl, ?_⟩
  split
  · assumption
  · exact le_calcBufsize_of_lt (hs.le.trans (by decide)) hpos hn (hsmall.resolve_left ‹_›)

private theorem growWriteTmp_run (hs : IsSize size) (hn : n ≤ size) {ok : Bool}
    (h : (growWriteTmp size alloc n).run s = some (ok, t)) :
    (t.wrPtr = s.wrPtr ∧ t.rdPtr = s.rdPtr ∧ t.data = s.data) ∧
      (Backed s → (s.writeDataTmpSize < n → Grows alloc n s.hintMaxWriteSize) →
        ok = true ∧ Backed t ∧ n ≤ capacity t.writeDataTmp) := by
  rw [growWriteTmp, run_atomic] at h
  split at h
  · rename_i hlt
    cases h
    refine ⟨⟨rfl, rfl, rfl⟩, fun hb hg => ?_⟩
    obtain ⟨junk, rfl, hle⟩ := granted_size hs (hg hlt) (by omega) hn
    exact ⟨rfl, ⟨le_rfl, hb.read⟩, hle⟩
  · rename_i hlt
    cases h
    exact ⟨⟨rfl, rfl, rfl⟩, fun hb _ => ⟨rfl, hb, (Nat.le_of_not_lt hlt).trans hb.write⟩⟩

private theorem growReadTmp_run (hs : IsSize size) (hn : n ≤ size) {ok : Bool}
    (h : (growReadTmp size alloc n).run s = some (ok, t)) :
    (t.wrPtr = s.wrPtr ∧ t.rdPtr = s.rdPtr ∧ t.data = s.data) ∧
      (Backed s → (s.readDataTmpSize < n → Grows alloc n s.hintMaxReadSize) →
        ok = true ∧ Backed t ∧ n ≤ capacity t.readDataTmp) := by
  rw [growReadTmp, run_atomic] at h
  split at h
  · rename_i hlt
    cases h
    refine ⟨⟨rfl, rfl, rfl⟩, fun hb hg => ?_⟩
    obtain ⟨junk, rfl, hle⟩ := granted_size hs (hg hlt) (by omega) hn
    exact ⟨rfl, ⟨hb.write, le_rfl⟩, hle⟩
  · rename_i hlt
    cases h
    exact ⟨⟨rfl, rfl, rfl⟩, fun hb _ => ⟨rfl, hb, (Nat.le_of_not_lt hlt).trans hb.read⟩⟩

/-- A pointer to a temporary buffer that has room is not null. -/
private theorem isSome_of_capacity {b : Option Block} (hpos : 0 < n) (h : n ≤ capacity b) : b.isSome = true := by
  cases b with
  | none => exact absurd h (Nat.not_le_of_lt hpos)
  | some b => rfl

theorem cbufReserve_run (hs : IsSize size) {r : Rc × Ptr} (h : (cbufReserve size alloc n).run s = some (r, t)) :
    (t.wrPtr = s.wrPtr ∧ t.rdPtr = s.rdPtr ∧ t.data = s.data) ∧
      (Backed s → (Call.reserve alloc n).Granted size s → Backed t ∧ (r.1 = .ok → n ≤ r.2.room size t)) := by
  have hlevel := levelIn_le hs s
  have hsize := hs.le
  have hfree : sizeSub size (levelIn size s) = size - levelIn size s := sizeSub_eq hlevel (by omega)
  simp only [cbufReserve, run_bind, freeLevel_run, loadWr, run_atomic, Option.bind_some, run_ite, run_pure] at h
  split at h
  · cases h
    exact ⟨⟨rfl, rfl, rfl⟩, fun hb _ => ⟨hb, by simp⟩⟩
  · rename_i hroom
    obtain ⟨hlt, hadd⟩ := index_fits hs (p := s.wrPtr) (n := n) (by omega)
    split at h
    · cases h
      refine ⟨⟨rfl, rfl, rfl⟩, fun hb _ => ⟨hb, fun _ => ?_⟩⟩
      change n ≤ size - index size s.wrPtr
      omega
    · rename_i hwrap
      obtain ⟨⟨ok, u⟩, hu, h⟩ := Option.bind_eq_some_iff.mp h
      obtain ⟨hkept, hgrown⟩ := growWriteTmp_run hs (by omega) hu
      cases ok with
      | false =>
        cases h
        refine ⟨hkept, fun hb hg => ?_⟩
        exact absurd (hgrown hb (hg (by omega) (by omega))).1 Bool.false_ne_true
      | true =>
        simp only [if_true, writeTmpPtr, run_atomic, Option.bind_some] at h
        cases h
        refine ⟨hkept, fun hb hg => ?_⟩
        obtain ⟨-, hbt, hcap⟩ := hgrown hb (hg (by omega) (by omega))
        refine ⟨hbt, fun _ => ?_⟩
        rw [if_pos (isSome_of_capacity (by omega) hcap)]
        exact hcap

theorem cbufPeek_run (hs : IsSize size) {r : Rc × Option Ptr} (h : (cbufPeek size alloc n).run s = some (r, t)) :
    (r.1 = .enomem → t.wrPtr = s.wrPtr ∧ t.rdPtr = s.rdPtr ∧ t.data = s.data) ∧
      (Backed s → (Call.peek alloc n).Granted size s →
        Backed t ∧ (r.1 = .ok → ∀ ptr, r.2 = some ptr → n ≤ ptr.room size t)) := by
  have hlevel := levelIn_le hs s
  simp only [cbufPeek, run_bind, fillLevel_run, loadRd, run_atomic, Option.bind_some, run_ite, run_pure] at h
  split at h
  · cases h
    exact ⟨by simp, fun hb _ => ⟨hb, by simp⟩⟩
  · rename_i hzero
    split at h
    · cases h
      exact ⟨by simp, fun hb _ => ⟨hb, by simp⟩⟩
    · rename_i hfill
      obtain ⟨hlt, hadd⟩ := index_fits hs (p := s.rdPtr) (n := n) (by omega)
      split at h
      · cases h
        refine ⟨by simp, fun hb _ => ⟨hb, fun _ ptr hptr => ?_⟩⟩
        cases hptr
        change n ≤ size - index size s.rdPtr
        omega
      · rename_i hwrap
        obtain ⟨⟨ok, u⟩, hu, h⟩ := Option.bind_eq_some_iff.mp h
        obtain ⟨hkept, hgrown⟩ := growReadTmp_run hs (by omega) hu
        cases ok with
        | false =>
          cases h
          refine ⟨fun _ => hkept, fun hb hg => ?_⟩
          exact absurd (hgrown hb (hg (by omega) (by omega))).1 Bool.false_ne_true
        | true =>
          simp only [if_true, readTmpPtr, run_atomic, Option.bind_some] at h
          obtain ⟨⟨_, v⟩, hv, h⟩ := Option.bind_eq_some_iff.mp h
          cases h
          refine ⟨by simp, fun hb hg => ?_⟩
          obtain ⟨-, hbu, hcap⟩ := hgrown hb (hg (by omega) (by omega))
          have hcopy := (copyToTmp_keeps copyToReadTmp_keepsTmp n).run .refl (fun _ _ _ => .trans) hv
          rw [← hcopy.readTmp] at hcap
          refine ⟨hcopy.backed hbu, fun _ ptr hptr => ?_⟩
          rw [if_pos (isSome_of_capacity (by omega) hcap)] at hptr
          cases hptr
          exact hcap

end Grown

structure Unchanged (size : Nat) (s t : Cbuf) : Prop where
  contents : contents size t = contents size s
  fill : levelIn size t = levelIn size s

/-- A pointer handed out leads to as many bytes as were asked for. -/
def HandsOut (size : Nat) (t : Cbuf) (r : Reply) : Call → Prop
  | .reserve _ n => r.rc = some .ok → ∃ ptr, r.ptr = some ptr ∧ n ≤ ptr.room size t
  | .peek _ n => r.rc = some .ok → ∀ ptr, r.ptr = some ptr → n ≤ ptr.room size t
  | _ => True

/-- The states of a buffer in use, where every larger temporary buffer was granted. -/
inductive Reached (size : Nat) : Cbuf → Prop
  | init : Reached size (newCbuf size)
  | next {s t : Cbuf} {c : Call} {r : Reply} (before : Reached size s) (granted : c.Granted size s)
      (run : (call size c).run s = some (r, t)) : Reached size t

variable {size : Nat} {s t : Cbuf} {c : Call} {r : Reply}

theorem Unchanged.of_kept (h : t.wrPtr = s.wrPtr ∧ t.rdPtr = s.rdPtr ∧ t.data = s.data) : Unchanged size s t := by
  obtain ⟨hwr, hrd, hdata⟩ := h
  exact ⟨by simp only [CircularBuffer.contents, used, hwr, hrd, hdata], by simp only [levelIn, hwr, hrd]⟩

/-- A run of a call that only adds its result. -/
private theorem keeps_call {α : Type} {p : Prog Cbuf α} {f : α → Reply} (hp : p.Keeps TmpKept) (hs : Backed s)
    (h : (p >>= fun a => pure (f a)).run s = some (r, t)) : Backed t :=
  ((hp.bind fun _ => .pure _).run .refl (fun _ _ _ => .trans) h).backed hs

theorem Backed.call (hsize : IsSize size) (hs : Backed s) (hg : c.Granted size s)
    (h : (call size c).run s = some (r, t)) : Backed t ∧ HandsOut size t r c := by
  cases c with
  | setHintMaxReadSize hint => exact ⟨keeps_call (setHint_keeps hint).1 hs h, trivial⟩
  | setHintMaxWriteSize hint => exact ⟨keeps_call (setHint_keeps hint).2 hs h, trivial⟩
  | isEmpty =>
    have hkeeps : isEmpty.Keeps TmpKept := loadWr_keeps.bind fun _ => loadRd_keeps.bind fun _ => .pure _
    exact ⟨keeps_call hkeeps hs h, trivial⟩
  | isFull => exact ⟨keeps_call isFull_keeps hs h, trivial⟩
  | fillLevel => exact ⟨keeps_call fillLevel_keeps hs h, trivial⟩
  | freeLevel => exact ⟨keeps_call freeLevel_keeps hs h, trivial⟩
  | write data => exact ⟨keeps_call (cbufWrite_keeps data) hs h, trivial⟩
  | store ptr data => exact ⟨keeps_call (storeThrough_keeps ptr data) hs h, trivial⟩
  | commit ptr n => exact ⟨keeps_call (cbufCommit_keeps ptr n) hs h, trivial⟩
  | read n => exact ⟨keeps_call (cbufRead_keeps n) hs h, trivial⟩
  | load ptr n => exact ⟨keeps_call (loadThrough_keeps ptr n) hs h, trivial⟩
  | discard n => exact ⟨keeps_call (cbufDiscard_keeps n) hs h, trivial⟩
  | reserve alloc n =>
    simp only [CircularBuffer.call, run_bind] at h
    obtain ⟨⟨result, u⟩, hu, h⟩ := Option.bind_eq_some_iff.mp h
    cases h
    obtain ⟨hb, hout⟩ := (cbufReserve_run hsize hu).2 hs hg
    refine ⟨hb, fun hrc => ?_⟩
    have hok := Option.some_inj.mp hrc
    exact ⟨result.2, if_pos hok, hout hok⟩
  | peek alloc n =>
    simp only [CircularBuffer.call, run_bind] at h
    obtain ⟨⟨result, u⟩, hu, h⟩ := Option.bind_eq_some_iff.mp h
    cases h
    obtain ⟨hb, hout⟩ := (cbufPeek_run hsize hu).2 hs hg
    refine ⟨hb, fun hrc => ?_⟩
    exact hout (Option.some_inj.mp hrc)

theorem Reached.backed (hsize : IsSize size) (h : Reached size s) : Backed s := by
  induction h with
  | init => exact ⟨le_rfl, le_rfl⟩
  | next _ granted run ih => exact (ih.call hsize granted run).1

/-- A reallocation that fails leaves a size behind that is not allocated. -/
theorem grow_failed (hsize : IsSize size) {n : Nat} (hn : n ≤ size) :
    (s.writeDataTmpSize < n → n ≤ s.hintMaxWriteSize ∨ n < 2 ^ 31 →
      ∃ t, (growWriteTmp size none n).run s = some (false, t) ∧ ¬Backed t) ∧
    (s.readDataTmpSize < n → n ≤ s.hintMaxReadSize ∨ n < 2 ^ 31 →
      ∃ t, (growReadTmp size none n).run s = some (false, t) ∧ ¬Backed t) := by
  have hnew {hint : Nat} (hpos : 0 < n) (h : n ≤ hint ∨ n < 2 ^ 31) :
      ¬(if n ≤ hint then hint else calcBufsize n size) ≤ 0 := by
    split
    · omega
    · have := le_calcBufsize_of_lt (hsize.le.trans (by decide)) hpos hn (h.resolve_left ‹_›)
      omega
  constructor <;> intro hlt h
  · refine ⟨_, (run_atomic _ s).trans (if_pos hlt), ?_⟩
    exact fun hb => hnew (by omega) h hb.write
  · refine ⟨_, (run_atomic _ s).trans (if_pos hlt), ?_⟩
    exact fun hb => hnew (by omega) h hb.read

/-- A call that is short of memory changes neither the contents nor the levels. As long as every
larger temporary buffer was granted, the recorded sizes are allocated, and a pointer leads to as
many bytes as were asked for. -/
theorem allocation_granted (hsize : IsSize size) :
    (∀ s t r alloc n, (call size (.reserve alloc n)).run s = some (r, t) → r.rc = some .enomem → Unchanged size s t) ∧
    (∀ s t r alloc n, (call size (.peek alloc n)).run s = some (r, t) → r.rc = some .enomem → Unchanged size s t) ∧
    ∀ s, Reached size s → Backed s ∧
      ∀ c r t, c.Granted size s → (call size c).run s = some (r, t) → HandsOut size t r c := by
  refine ⟨fun s t r alloc n h _ => ?_, fun s t r alloc n h hrc => ?_, fun s hs =>
    ⟨hs.backed hsize, fun c r t hg h => ((hs.backed hsize).call hsize hg h).2⟩⟩
  · simp only [call, run_bind] at h
    obtain ⟨⟨result, u⟩, hu, h⟩ := Option.bind_eq_some_iff.mp h
    cases h
    exact .of_kept (cbufReserve_run hsize hu).1
  · simp only [call, run_bind] at h
    obtain ⟨⟨result, u⟩, hu, h⟩ := Option.bind_eq_some_iff.mp h
    cases h
    exact .of_kept ((cbufPeek_run hsize hu).1 (Option.some_inj.mp hrc))

def calls (size : Nat) : Guarded Cbuf Call where
  step s c := ((call size c).run s).map Prod.snd

theorem Reached.calls {cs : List Call} (h : Reached size s)
    (hall : (calls size).Each (fun s c => c.Granted size s) s cs) (hrun : (calls size).run s cs = some t) :
    Reached size t := by
  refine Guarded.run_keeps (P := Reached size) (fun s c t hs hg hstep => ?_) h hall hrun
  obtain ⟨⟨r, u⟩, hcall, rfl⟩ := Option.map_eq_some_iff.mp hstep
  exact .next hs hg hcall

def atLast : List Call := [.write [1, 2, 3], .read 3]
def wrapped : List Call :=
  atLast ++ [.reserve (some fun _ => 0) 3, .store .writeDataTmp [4, 5, 6], .commit .writeDataTmp 3]

theorem wrapped_run : ((calls 4).run (newCbuf 4) atLast).isSome ∧ ((calls 4).run (newCbuf 4) wrapped).isSome := by
  decide +kernel

/-- A reservation and a look that wrap, with a temporary buffer that they are granted. -/
theorem allocation_granted_start :
    let alloc : Alloc := some fun _ => 0
    let s := ((calls 4).run (newCbuf 4) atLast).get wrapped_run.1
    let s' := ((calls 4).run (newCbuf 4) wrapped).get wrapped_run.2
    Backed s' ∧
      (∃ t, (call 4 (.reserve alloc 3)).run s = some (⟨some .ok, some .writeDataTmp⟩, t) ∧
        3 ≤ Ptr.writeDataTmp.room 4 t) ∧
      ∃ t, (call 4 (.peek alloc 3)).run s' = some (⟨some .ok, some .readDataTmp⟩, t) ∧
        3 ≤ Ptr.readDataTmp.room 4 t := by
  intro alloc s s'
  have hs : Reached 4 s := Reached.calls .init (by decide +kernel) (Option.some_get wrapped_run.1).symm
  have hs' : Reached 4 s' := Reached.calls .init (by decide +kernel) (Option.some_get wrapped_run.2).symm
  have hreserve : ((call 4 (.reserve alloc 3)).run s).map Prod.fst = some ⟨some .ok, some .writeDataTmp⟩ := by
    decide +kernel
  have hpeek : ((call 4 (.peek alloc 3)).run s').map Prod.fst = some ⟨some .ok, some .readDataTmp⟩ := by
    decide +kernel
  obtain ⟨⟨_, t⟩, hreserve, rfl⟩ := Option.map_eq_some_iff.mp hreserve
  obtain ⟨⟨_, t'⟩, hpeek, rfl⟩ := Option.map_eq_some_iff.mp hpeek
  have hgranted := (allocation_granted ⟨2, by decide, rfl⟩).2.2
  obtain ⟨ptr, hptr, hroom⟩ := (hgranted s hs).2 _ _ t (by decide +kernel) hreserve rfl
  cases hptr
  exact ⟨(hgranted s' hs').1, ⟨t, hreserve, hroom⟩, t',
    hpeek, (hgranted s' hs').2 _ _ t' (by decide +kernel) hpeek rfl _ rfl⟩

def callAll (size : Nat) (s : Cbuf) : List Call → Option (List Reply × Cbuf)
  | [] => some ([], s)
  | c :: cs => do
    let step ← (call size c).run s
    let rest ← callAll size step.2 cs
    pure (step.1 :: rest.1, rest.2)

/-- After a failed reservation a smaller one succeeds with a null pointer, and after a failed look
a smaller one stores through it. -/
theorem allocation_failed :
    (callAll 4 (newCbuf 4) [.setHintMaxWriteSize 4, .write [1, 2, 3], .read 3, .reserve none 3,
      .reserve (some fun _ => 0) 2]).map Prod.fst =
      some [⟨none, none⟩, ⟨some .ok, none⟩, ⟨some .ok, none⟩, ⟨some .enomem, none⟩, ⟨some .ok, some .null⟩] ∧
    (∀ s, Ptr.null.room 4 s < 2) ∧
    (callAll 4 (newCbuf 4) [.setHintMaxReadSize 4, .write [1, 2, 3], .read 3, .write [4, 5, 6], .peek none 3]).map
      Prod.fst = some [⟨none, none⟩, ⟨some .ok, none⟩, ⟨some .ok, none⟩, ⟨some .ok, none⟩, ⟨some .enomem, none⟩] ∧
    (callAll 4 (newCbuf 4) [.setHintMaxReadSize 4, .write [1, 2, 3], .read 3, .write [4, 5, 6], .peek none 3,
      .peek (some fun _ => 0) 2]).map Prod.fst = none := by
  exact ⟨by decide +kernel, fun _ => Nat.zero_lt_two, by decide +kernel, by decide +kernel⟩

end Glip.CircularBuffer
