import Glip.CircularBuffer.Requests
import Glip.Foundation.ProgramPool

/-! One producer and one consumer on a circular buffer, with the steps of their
calls interleaved in every order. -/
namespace Glip.CircularBuffer
open Foundation Prog

inductive Side where
  | producer
  | consumer
  deriving DecidableEq

def Side.Calls : Side → Request → Prop
  | producer, .setHintMaxWriteSize _ | producer, .freeLevel | producer, .write _
  | producer, .reserveCommit .. => True
  | consumer, .setHintMaxReadSize _ | consumer, .fillLevel | consumer, .read _ | consumer, .peek ..
  | consumer, .discard _ => True
  | _, _ => False

abbrev Entry := Done Request Cbuf Result

def may (oom : Prop) (i : Side) (_ : List Entry) (r : Request) : Prop := i.Calls r ∧ r.Proper oom

theorem may_mono {oom : Prop} (i : Side) (log : List Entry) (r : Request) (h : may oom i log r) : may True i log r := by
  obtain ⟨hcalls, hproper⟩ := h
  refine ⟨hcalls, ?_⟩
  cases r with
  | reserveCommit | peek => exact ⟨fun _ => trivial, hproper.2⟩
  | _ => trivial

def writtenBy : Request → Result → List UInt8
  | .write data, .code .ok => data
  | .reserveCommit _ _ data m, .code .ok => data.take m
  | _, _ => []

def written (log : List Entry) : List UInt8 := log.flatMap fun d => writtenBy d.request d.result

/-- What the consumer has had so far: the bytes returned to it by reads and by
peeks that it then discarded, the bytes it has peeked at and not taken since, the
largest fill level it has been told less what it has taken since, and whether it
discarded only bytes that it had peeked at. -/
structure Seen where
  returned : List UInt8
  peeked : List UInt8
  known : Nat
  covered : Bool

def Seen.after (v : Seen) : Request → Result → Seen
  | .read n, .bytes .ok bs => ⟨v.returned ++ bs, v.peeked.drop n, v.known - n, v.covered⟩
  | .peek .., .bytes .ok bs => { v with peeked := bs }
  | .discard n, .code .ok =>
    ⟨v.returned ++ v.peeked.take n, v.peeked.drop n, v.known - n, v.covered && n ≤ v.peeked.length⟩
  | .fillLevel, .level n => { v with known := max v.known n }
  | _, _ => v

def seenBy (log : List Entry) : Seen := log.foldl (fun v d => v.after d.request d.result) ⟨[], [], 0, true⟩

theorem written_concat (log : List Entry) (d : Entry) :
    written (log ++ [d]) = written log ++ writtenBy d.request d.result := by
  simp [written]

theorem seenBy_concat (log : List Entry) (d : Entry) :
    seenBy (log ++ [d]) = (seenBy log).after d.request d.result := by
  simp [seenBy]

def takes : Request → Result → Nat
  | .read n, .bytes .ok _ => n
  | .discard n, .code .ok => n
  | _, _ => 0

def takenBy (log : List Entry) : Nat := (log.map fun d => takes d.request d.result).sum

theorem takenBy_concat (log : List Entry) (d : Entry) :
    takenBy (log ++ [d]) = takenBy log + takes d.request d.result := by
  simp [takenBy]

def Request.looks : Request → Option Nat
  | read n => some n
  | peek _ n _ => some n
  | _ => none

/-- The bytes that a call has looked at did not wrap far before the end of the array, with the read pointer at `rd`. -/
def Entry.Near (size rd : Nat) (r : Request) (a : Result) : Prop :=
  ∀ n, r.looks = some n → a.rc = some .ok → CircularBuffer.Near size rd n

def AllNear (size : Nat) (log : List Entry) : Prop :=
  ∀ pre d post, log = pre ++ d :: post → Entry.Near size (takenBy pre) d.request d.result

structure Knows (size : Nat) (v : Seen) (taken : List UInt8) (s : Cbuf) : Prop where
  returned : v.covered → taken = v.returned
  peeked : v.peeked <+: contents size s

/-- Every byte written is either taken or still in the buffer. -/
structure Shared (size : Nat) (oom : Prop) (s : Cbuf) (log : Side → List Entry) : Prop where
  ok : Ok size oom s
  rd : s.rdPtr ≡ takenBy (log .consumer) [MOD size]
  known : (seenBy (log .consumer)).known ≤ used size s
  bytes : ∃ taken, written (log .producer) = taken ++ contents size s ∧
    (AllNear size (log .consumer) → Knows size (seenBy (log .consumer)) taken s)

def Consumed (size : Nat) (oom : Prop) (s₀ s : Cbuf) : Request → Result → Prop
  | .read n, .bytes rc bs => ReadOutcome (ReaderView.shared size oom) False n n rc s₀ s ∧
      ((rc = .ok → Near size s₀.rdPtr n) → bs = yielded rc ((contents size s₀).take n))
  | .peek alloc n m, .bytes rc bs => ReadOutcome (ReaderView.shared size oom) (alloc = none) n 0 rc s₀ s ∧
      ((rc = .ok → Near size s₀.rdPtr n) → bs = yielded rc ((contents size s₀).take m))
  | .discard n, .code rc => ReadOutcome (ReaderView.shared size oom) False n n rc s₀ s
  | .fillLevel, .level n => ReaderStep size oom s₀ s ∧ n ≤ used size s
  | .setHintMaxReadSize _, .done => ReaderStep size oom s₀ s
  | _, _ => False

section
variable {size : Nat} {oom : Prop} {s t : Cbuf}

theorem WriterAdds.rely {bs : List UInt8} (h : WriterAdds size oom bs s t) : ReaderRely size oom s t :=
  ⟨h.rd, h.hint, h.tmpSize, h.tmp, h.contents ▸ List.prefix_append _ _, h.ok⟩

theorem ReaderTakes.rely {n : Nat} (h : ReaderTakes size oom n s t) : WriterRely size oom s t :=
  ⟨h.wr, h.data, h.hint, h.tmpSize, h.tmp, fun hs => ⟨h.ok hs, h.used ▸ Nat.sub_le _ _⟩⟩

/-- The read pointer moves by the number of bytes taken. -/
private theorem takes_modEq {n : Nat} (h : ReaderTakes size oom n s t) (hok : Ok size oom s) (hn : n ≤ used size s) :
    t.rdPtr ≡ s.rdPtr + n [MOD size] := by
  have hs := hok.wr_modEq
  have ht := (h.ok hok).wr_modEq
  rw [h.wr, h.used] at ht
  rw [show s.rdPtr + used size s = s.rdPtr + n + (used size s - n) by omega] at hs
  exact Nat.ModEq.add_right_cancel' _ (ht.symm.trans hs)

/-- Whatever the call, its last step takes the bytes that it accounts for, which are there. -/
theorem consumed_takes {r : Request} {a : Result} (h : Consumed size oom s t r a) :
    ReaderTakes size oom (takes r a) s t ∧ takes r a ≤ used size s := by
  unfold Consumed at h
  split at h
  · rename_i n rc bs
    obtain ⟨ho, -⟩ := h
    have hlevel := ho.level
    cases rc with
    | ok =>
      obtain ⟨v, hv, hle⟩ := hlevel
      exact ⟨ho.takes, hle.trans hv⟩
    | einval => exact ⟨ho.takes, Nat.zero_le _⟩
    | enomem => exact hlevel.elim
  · rename_i alloc n m rc bs
    have htakes := h.1.takes
    rw [ite_self] at htakes
    exact ⟨htakes, Nat.zero_le _⟩
  · rename_i n rc
    have hlevel := h.level
    cases rc with
    | ok =>
      obtain ⟨v, hv, hle⟩ := hlevel
      exact ⟨h.takes, hle.trans hv⟩
    | einval => exact ⟨h.takes, Nat.zero_le _⟩
    | enomem => exact hlevel.elim
  · exact ⟨h.1.toReaderTakes, Nat.zero_le _⟩
  · exact ⟨h.toReaderTakes, Nat.zero_le _⟩
  · exact h.elim

/-- What the consumer has been told of is still there, but for what it has taken. -/
private theorem consumed_known {v : Seen} {r : Request} {a : Result} (h : Consumed size oom s t r a)
    (hv : v.known ≤ used size s) : (v.after r a).known ≤ used size t := by
  have hused := (consumed_takes h).1.used
  unfold Consumed at h
  split at h
  · rename_i n rc bs
    cases rc <;> simp only [takes, Seen.after] at hused ⊢ <;> omega
  · rename_i alloc n m rc bs
    cases rc <;> simp only [takes, Seen.after] at hused ⊢ <;> omega
  · rename_i n rc
    cases rc <;> simp only [takes, Seen.after] at hused ⊢ <;> omega
  · simp only [takes, Seen.after] at hused ⊢
    exact max_le (by omega) h.2
  · simp only [takes, Seen.after] at hused ⊢
    omega
  · exact h.elim

private theorem Knows.same {v : Seen} {taken : List UInt8} (h : Knows size v taken s)
    (hc : contents size t = contents size s) : Knows size v taken t := ⟨h.returned, hc ▸ h.peeked⟩

private theorem Knows.grow {v : Seen} {taken bs : List UInt8} (h : Knows size v taken s)
    (hc : contents size t = contents size s ++ bs) : Knows size v taken t :=
  ⟨h.returned, hc ▸ h.peeked.trans (List.prefix_append _ _)⟩

/-- `n` bytes are taken from the front. -/
private theorem knows_take {v : Seen} {taken bs : List UInt8} {n known : Nat} {covered : Bool}
    (h : Knows size v taken s) (hc : contents size t = (contents size s).drop n)
    (hbs : covered → v.covered ∧ bs = (contents size s).take n) :
    Knows size ⟨v.returned ++ bs, v.peeked.drop n, known, covered⟩
      (taken ++ (contents size s).take n) t := by
  refine ⟨fun hcov => ?_, hc ▸ h.peeked.drop n⟩
  obtain ⟨hv, rfl⟩ := hbs hcov
  rw [h.returned hv]

private theorem consumed_knows {v : Seen} {taken : List UInt8} {r : Request} {a : Result}
    (hd : Consumed size oom s t r a) (hnear : Entry.Near size s.rdPtr r a) (h : Knows size v taken s) :
    Knows size (v.after r a) (taken ++ (contents size s).take (takes r a)) t := by
  have hstill (ht : contents size t = contents size s) {w : Seen} (hw : Knows size w taken t) :
      Knows size w (taken ++ (contents size s).take 0) t := by simpa using hw
  unfold Consumed at hd
  split at hd
  · rename_i n rc bs
    obtain ⟨ho, hbs⟩ := hd
    obtain rfl := hbs fun hrc => hnear n rfl (by rw [hrc]; rfl)
    cases rc with
    | ok => exact knows_take h ho.takes.contents fun hc => ⟨hc, by simp [yielded]⟩
    | einval => exact hstill ho.takes.contents (h.same ho.takes.contents)
    | enomem => exact ho.level.elim
  · rename_i alloc n m rc bs
    obtain ⟨ho, hbs⟩ := hd
    obtain rfl := hbs fun hrc => hnear n rfl (by rw [hrc]; rfl)
    have hc : contents size t = contents size s := by simpa using ho.takes.contents
    have hk := h.same hc
    cases rc with
    | ok => exact hstill hc ⟨hk.returned, hc ▸ List.take_prefix m _⟩
    | einval => exact hstill hc hk
    | enomem => exact hstill hc hk
  · rename_i n rc
    cases rc with
    | ok =>
      refine knows_take h hd.takes.contents fun hc => ?_
      simp only [Bool.and_eq_true, decide_eq_true_eq] at hc
      refine ⟨hc.1, ?_⟩
      obtain ⟨rest, hrest⟩ := h.peeked
      rw [← hrest, List.take_append_of_le_length hc.2]
    | einval => exact hstill hd.takes.contents (h.same hd.takes.contents)
    | enomem => exact hd.level.elim
  · obtain ⟨hst, hn⟩ := hd
    have hk := h.same hst.contents
    exact hstill hst.contents ⟨hk.returned, hk.peeked⟩
  · exact hstill hd.contents (h.same hd.contents)
  · exact hd.elim

private theorem shared_step {log : Side → List Entry} (h : Shared size oom s log) (hok : Ok size oom s → Ok size oom t)
    (hrd : t.rdPtr = s.rdPtr) (hc : contents size t = contents size s) : Shared size oom t log := by
  have hused : used size t = used size s := by simpa using congrArg List.length hc
  obtain ⟨taken, hq, hk⟩ := h.bytes
  exact ⟨hok h.ok, hrd ▸ h.rd, hused ▸ h.known, taken, hc ▸ hq, fun hnear => (hk hnear).same hc⟩

private theorem shared_add {log : Side → List Entry} {d : Entry} (h : Shared size oom s log)
    (hd : WriterAdds size oom (writtenBy d.request d.result) s t) :
    Shared size oom t (Function.update log .producer (log .producer ++ [d])) := by
  obtain ⟨taken, hq, hk⟩ := h.bytes
  have hlog : Function.update log .producer (log .producer ++ [d]) .consumer = log .consumer :=
    Function.update_of_ne (by decide) _ _
  refine ⟨hd.ok h.ok, ?_, ?_, taken, ?_, ?_⟩
  · rw [hlog, hd.rd]
    exact h.rd
  · have hused := congrArg List.length hd.contents
    simp only [contents_length, List.length_append] at hused
    have := h.known
    rw [hlog]
    omega
  · rw [Function.update_self, written_concat, hq, hd.contents, List.append_assoc]
  · rw [hlog]
    exact fun hnear => (hk hnear).grow hd.contents

private theorem shared_take {log : Side → List Entry} {d : Entry} (h : Shared size oom s log)
    (hd : Consumed size oom s t d.request d.result) :
    Shared size oom t (Function.update log .consumer (log .consumer ++ [d])) := by
  obtain ⟨taken, hq, hk⟩ := h.bytes
  obtain ⟨htakes, hle⟩ := consumed_takes hd
  have hlog : Function.update log .consumer (log .consumer ++ [d]) .producer = log .producer :=
    Function.update_of_ne (by decide) _ _
  refine ⟨htakes.ok h.ok, ?_, ?_, taken ++ (contents size s).take (takes d.request d.result), ?_, ?_⟩
  · rw [Function.update_self, takenBy_concat]
    exact (takes_modEq htakes h.ok hle).trans (h.rd.add_right _)
  · rw [Function.update_self, seenBy_concat]
    exact consumed_known hd h.known
  · rw [hlog, hq, htakes.contents, List.append_assoc, List.take_append_drop]
  · rw [Function.update_self, seenBy_concat]
    intro hnear
    have hpre : AllNear size (log .consumer) := fun pre e post he => hnear pre e (post ++ [d]) (by simp [he])
    have hlast : Entry.Near size s.rdPtr d.request d.result := fun n hn hrc => by
      have := hnear (log .consumer) d [] rfl n hn hrc
      rwa [Near, ← h.rd] at this
    exact consumed_knows hd hlast (hk hpre)

/-- In a buffer of up to 2 ^ 29 bytes no call wraps far before the end of the array. -/
theorem allNear_of_le (hsmall : size ≤ 2 ^ 29) (log : List Entry) : AllNear size log :=
  fun _ _ _ _ _ _ _ => .inr (by omega)

theorem Shared.queue {log : Side → List Entry} (h : Shared size oom s log) (hnear : AllNear size (log .consumer)) :
    ∃ taken, written (log .producer) = taken ++ contents size s ∧ Knows size (seenBy (log .consumer)) taken s :=
  h.bytes.imp fun _ ⟨hq, hk⟩ => ⟨hq, hk hnear⟩

variable (size oom) in
def SideRely : Side → Cbuf → Cbuf → Prop
  | .producer => WriterRely size oom
  | .consumer => ReaderRely size oom

variable (size oom) in
def SideStep : Side → Cbuf → Cbuf → Prop
  | .producer => WriterStep size oom
  | .consumer => ReaderStep size oom

theorem sideRely_refl : ∀ (i : Side) (s : Cbuf), SideRely size oom i s s
  | .producer => WriterRely.refl
  | .consumer => ReaderRely.refl

theorem sideRely_trans : ∀ (i : Side) (s t u : Cbuf), SideRely size oom i s t → SideRely size oom i t u →
    SideRely size oom i s u
  | .producer => fun _ _ _ => WriterRely.trans
  | .consumer => fun _ _ _ => ReaderRely.trans

/-- What a side does short of the end of a call is what the other side relies on. -/
theorem sideStep_rely : ∀ (i j : Side) (s t : Cbuf), i ≠ j → SideStep size oom i s t → SideRely size oom j s t
  | .producer, .consumer => fun _ _ _ h => h.adds.rely
  | .consumer, .producer => fun _ _ _ h => h.toReaderTakes.rely
  | .producer, .producer => fun _ _ h => (h rfl).elim
  | .consumer, .consumer => fun _ _ h => (h rfl).elim

variable (size oom) in
def SideEnds : Side → Request → Result → Cbuf → Cbuf → Prop
  | .producer, r, a, s₀, s => WriterAdds size oom (writtenBy r a) s₀ s
  | .consumer, r, a, s₀, s => Consumed size oom s₀ s r a

/-- On a large buffer, too, a call of the producer adds the bytes that it accounts for, unless it crashes. -/
theorem producer_safe (hs : IsSize size) (hsmall : oom ∨ size ≤ 2 ^ 29) (h : Ok size oom s) {r : Request}
    (hr : may oom .producer [] r) :
    (perform size r).Safe (WriterRely size oom) (WriterStep size oom) oom
      (SideEnds size oom .producer r) s s := by
  have hadd {rc : Rc} {s₀ s : Cbuf} {bs : List UInt8} {r : Request} {nomem : Prop} {n : Nat}
      (ho : WriteOutcome (WriterView.shared size oom) nomem n bs rc s₀ s)
      (hb : writtenBy r (.code rc) = if rc = .ok then bs else []) :
      SideEnds size oom .producer r (.code rc) s₀ s := by
    rw [SideEnds, hb]
    exact ho.adds
  obtain ⟨hcalls, hproper⟩ := hr
  cases r with
  | setHintMaxWriteSize hint =>
    exact (safe_bind _ _ _ _ _).mpr ((setHintMaxWriteSize_safe (V := .shared size oom) hint s).mono
      fun _ _ _ hst => hst.adds)
  | freeLevel =>
    exact (safe_bind _ _ _ _ _).mpr ((freeLevel_safe (V := .shared size oom) hs h).mono
      fun _ _ _ hst => hst.1.adds)
  | write data =>
    refine (safe_bind _ _ _ _ _).mpr ((cbufWrite_safe (V := .shared size oom) hs data h).mono
      fun rc _ _ ho => hadd ho ?_)
    cases rc <;> rfl
  | reserveCommit alloc n data m =>
    refine (safe_bind _ _ _ _ _).mpr ((reserveCommit_safe (V := .shared size oom) hs hsmall hproper.1
      hproper.2.1 hproper.2.2 h).mono fun rc _ _ ho => hadd ho ?_)
    cases rc <;> rfl
  | _ => exact hcalls.elim

/-- On a large buffer a call of the consumer takes the bytes that it accounts for, unless it crashes. -/
theorem consumer_safe (hs : IsSize size) (hsmall : oom ∨ size ≤ 2 ^ 29) (h : Ok size oom s) {r : Request}
    (hr : may oom .consumer [] r) :
    (perform size r).Safe (ReaderRely size oom) (ReaderStep size oom) oom
      (SideEnds size oom .consumer r) s s := by
  obtain ⟨hcalls, hproper⟩ := hr
  have hnear (n : Nat) : oom ∨ (n ≤ size → Near size s.rdPtr n) :=
    hsmall.imp_right fun hsmall _ => .inr (by omega)
  cases r with
  | setHintMaxReadSize hint =>
    exact (safe_bind _ _ _ _ _).mpr ((setHintMaxReadSize_safe (V := .shared size oom) hint s).mono
      fun _ _ _ hst => hst)
  | fillLevel =>
    exact (safe_bind _ _ _ _ _).mpr ((fillLevel_safe (V := .shared size oom) hs h).mono fun _ _ _ hst => hst)
  | read n =>
    exact (safe_bind _ _ _ _ _).mpr ((cbufRead_safe (V := .shared size oom) hs n (hnear n) h).mono
      fun _ _ _ ho => ho)
  | peek alloc n m =>
    have hpeek := peekBytes_safe (V := .shared size oom) hs hsmall hproper.1
      ((hnear n).imp_right fun hn => ⟨hproper.2, hn⟩) h
    exact (safe_bind _ _ _ _ _).mpr (hpeek.mono
      fun _ _ _ ⟨ho, hbs⟩ => ⟨ho, fun hgood => hbs fun hrc => ⟨hproper.2, hgood hrc⟩⟩)
  | discard n =>
    exact (safe_bind _ _ _ _ _).mpr ((cbufDiscard_safe (V := .shared size oom) hs n h).mono fun _ _ _ ho => ho)
  | _ => exact hcalls.elim

/-- What the two sides promise each other. In a large buffer a call may crash. -/
def sharing (hs : IsSize size) (oom : Prop) (hsmall : oom ∨ size ≤ 2 ^ 29) :
    Contract (perform size) (may oom) where
  inv := Shared size oom
  rely := SideRely size oom
  stay := SideStep size oom
  fin := SideEnds size oom
  crash := oom
  rely_refl := sideRely_refl
  rely_trans := sideRely_trans
  stay_rely := sideStep_rely
  fin_rely
    | .producer, .consumer => fun _ _ _ _ _ h => h.rely
    | .consumer, .producer => fun _ _ _ _ _ h => (consumed_takes h).1.rely
    | .producer, .producer => fun _ _ _ _ h => (h rfl).elim
    | .consumer, .consumer => fun _ _ _ _ h => (h rfl).elim
  stay_inv
    | .producer => fun _ _ _ h hi => shared_step hi h.ok h.rd h.contents
    | .consumer => fun _ _ _ h hi => shared_step hi h.ok h.rd h.contents
  fin_inv
    | .producer => fun _ _ _ _ h hi => shared_add hi h
    | .consumer => fun _ _ _ _ h hi => shared_take hi h
  safe
    | .producer => fun _ _ _ hi hr => producer_safe hs hsmall hi.ok hr
    | .consumer => fun _ _ _ hi hr => consumer_safe hs hsmall hi.ok hr

theorem shared_newCbuf (hs : IsSize size) : Shared size oom (newCbuf size) fun _ => [] := by
  refine ⟨newCbuf_ok hs, rfl, Nat.zero_le _, [], ?_, fun _ => ⟨fun _ => rfl, List.nil_prefix⟩⟩
  simp [newCbuf_contents, written]

end

def Side.steps (i : Side) (n : Nat) : List (Side × Option Request) := List.replicate n (i, none)

/-- Unless an allocation fails, no call of either side crashes: every access stays
inside its block of memory. -/
theorem shared_cbuf_no_fault (k : Nat) (hk : k ≤ 29) (p : Pool Side Request Cbuf Result)
    (h : Pool.Reachable (perform (2 ^ k)) (may False) (newCbuf (2 ^ k)) p) (i : Side)
    (c : Foundation.Call Request Cbuf Result) (hc : p.calls i = some c) : c.rest ≠ .fault := by
  have hs : IsSize (2 ^ k) := ⟨k, by omega, rfl⟩
  have hsmall : 2 ^ k ≤ 2 ^ 29 := Nat.pow_le_pow_right (by norm_num) hk
  exact (sharing hs False (.inr hsmall)).no_fault (shared_newCbuf hs) id h hc

end Glip.CircularBuffer
