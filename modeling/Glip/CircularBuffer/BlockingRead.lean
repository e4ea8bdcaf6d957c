import Glip.CircularBuffer.BlockingCalls
import Glip.CircularBuffer.NonBlocking
import Glip.CircularBuffer.ReaderLevel

/-! `gb_util_cbuf_read_b`, which waits until all the bytes are there and then reads what it finds. -/
namespace Glip.CircularBuffer
open Foundation

/-- What the function returns, negated: `0`, `ETIMEDOUT`, `ECANCELED`, or 1. -/
inductive ReadRc where
  | ok
  | etimedout
  | ecanceled
  | error
  deriving DecidableEq

def WaitRc.toRead : WaitRc → ReadRc
  | ok => .ok
  | etimedout => .etimedout
  | ecanceled => .ecanceled

/-- Where `gb_util_cbuf_read_b` is: at the fill level of its loop, at the wait, or at the fill level or the read
of `gb_util_cbuf_read`. -/
inductive ReadPc where
  | measuring
  | waiting (level : Nat)
  | filling
  | reading (fillLevel : Nat)
  | returned (retval : ReadRc)
  deriving DecidableEq

structure ReadB where
  waited : WaitRc
  sizeRead : Nat
  data : List UInt8
  pc : ReadPc
  deriving DecidableEq

namespace ReadB

def request (n : Nat) (x : ReadB) : Option Request :=
  match x.pc with
  | .measuring | .filling => some .fillLevel
  | .reading fillLevel => some (.read (intMin fillLevel n))
  | .waiting _ | .returned _ => none

/-- A read that fails leaves `*size_read` and the return code as they are. -/
def after (n : Nat) (x : ReadB) (a : Result) : ReadB :=
  match x.pc, a with
  | .measuring, .level level => { x with pc := if level < n then .waiting level else .filling }
  | .filling, .level fillLevel => { x with pc := .reading fillLevel }
  | .reading fillLevel, .bytes rc bs =>
    if rc = .ok then
      let sizeRead := intMin fillLevel n
      ⟨x.waited, sizeRead, bs, .returned (if n ≠ sizeRead then .etimedout else x.waited.toRead)⟩
    else { x with pc := .returned x.waited.toRead }
  | _, _ => x

def waits (x : ReadB) : Option Nat :=
  match x.pc with
  | .waiting level => some level
  | _ => none

def resume (x : ReadB) (rv : WaitRc) : ReadB :=
  { x with
    waited := rv
    pc := match rv with
      | .ok => .measuring
      | .etimedout => .filling
      | .ecanceled => .returned .ecanceled }

def code (n : Nat) : BlockingCode ReadB where
  side := .consumer
  request := request n
  after := after n
  waits := waits
  resume := resume

def start (size n : Nat) (p : Pool Side Request Cbuf Result) (telling : Bool) (now : Nat) (cancelWaits : Bool) :
    Blocking ReadB :=
  ⟨p, telling, ⟨.ok, 0, [], if n > size then .returned .error else .measuring⟩, none, now, now, cancelWaits⟩

def Expired (deadline : Option Nat) (now : Nat) : Prop := ∃ d, deadline = some d ∧ d ≤ now

structure Lawful (n : Nat) (x : ReadB) (expired : Prop) (retval : ReadRc) : Prop where
  ok : retval = .ok ↔ x.sizeRead = n
  etimedout : retval = .etimedout ↔ x.sizeRead < n ∧ expired

/-- The final read takes `m` bytes: this is what the comparison as `int` makes of the level that the loads of `d₁`
see, and the buffer does not fill up between the loads of `d₂`. -/
def Takes (size n m : Nat) (d₁ d₂ : Entry) : Prop :=
  intMin (seenLevel size d₁.seen) n = m ∧ m ≤ size ∧ (m = 0 ∨ ¬Race size d₂.seen)

structure Fits (size n : Nat) (x : ReadB) (expired : Prop) (d₁ d₂ : Entry) : Prop where
  ok : x.waited = .ok → n = 0 ∨ Takes size n n d₁ d₂ ∨ (expired ∧ ∃ m < n, Takes size n m d₁ d₂)
  etimedout : x.waited = .etimedout → ¬Takes size n n d₁ d₂

inductive Ended (size n : Nat) (x : ReadB) (d₁ d₂ : Entry) : ReadRc → Prop where
  | reads (m : Nat) : Takes size n m d₁ d₂ → m ≤ n → x.sizeRead = m →
      Ended size n x d₁ d₂ (if n ≠ m then .etimedout else x.waited.toRead)
  | fails : (∀ m, ¬Takes size n m d₁ d₂) → x.sizeRead = 0 → Ended size n x d₁ d₂ x.waited.toRead

structure Reads (size n : Nat) (deadline : Option Nat) (before : List Entry) (x : ReadB) (log : List Entry)
    (now : Nat) : Prop where
  data : readBy log = readBy before ++ x.data
  length : x.data.length = x.sizeRead
  unread : (∀ retval, x.pc ≠ .returned retval) → x.data = [] ∧ n ≤ size
  waited : x.waited = .etimedout → 0 < n ∧ Expired deadline now
  waiting : ∀ level, x.pc = .waiting level → level < n
  reading : ∀ v, x.pc = .reading v → ∃ pre d, log = pre ++ [d] ∧ d.request = .fillLevel ∧ d.result = .level v ∧
    v = seenLevel size d.seen
  uncancelled : x.waited = .ecanceled → x.pc = .returned .ecanceled
  returned : ∀ retval, x.pc = .returned retval →
    (((retval = .error ∧ size < n) ∨ (retval = .ecanceled ∧ n ≤ size)) ∧ x.sizeRead = 0) ∨
      (n ≤ size ∧ x.waited ≠ .ecanceled ∧ ∃ pre d₁ d₂, log = pre ++ [d₁, d₂] ∧ Ended size n x d₁ d₂ retval)

section
variable {size n m now : Nat} {deadline : Option Nat} {before log : List Entry} {x : ReadB} {d d₁ d₂ : Entry}
  {retval : ReadRc} {expired : Prop}

theorem Takes.unique {m' : Nat} (h : Takes size n m d₁ d₂) (h' : Takes size n m' d₁ d₂) : m = m' :=
  h.1.symm.trans h'.1

theorem Ended.lawful_iff (h : Ended size n x d₁ d₂ retval) (hw : x.waited ≠ .ecanceled)
    (ht : x.waited = .etimedout → 0 < n ∧ expired) :
    Lawful n x expired retval ↔ Fits size n x expired d₁ d₂ := by
  cases h with
  | reads m htakes hle hread =>
    have hall : Takes size n n d₁ d₂ ↔ m = n := by
      refine ⟨fun h => htakes.unique h, fun h => ?_⟩
      subst h
      exact htakes
    cases hwaited : x.waited with
    | ecanceled => exact (hw hwaited).elim
    | ok =>
      rw [WaitRc.toRead]
      by_cases hmn : m = n
      · subst hmn
        rw [if_neg (by simp)]
        exact iff_of_true ⟨by simp [hread], by simp [hread]⟩ ⟨fun _ => .inr (.inl htakes), by simp [hwaited]⟩
      · rw [if_pos (Ne.symm hmn)]
        have hlt := Nat.lt_of_le_of_ne hle hmn
        constructor
        · intro hlaw
          exact ⟨fun _ => .inr (.inr ⟨(hlaw.etimedout.mp rfl).2, m, hlt, htakes⟩), by simp [hwaited]⟩
        · intro hfits
          rcases hfits.ok hwaited with rfl | hn | ⟨hexp, -⟩
          · omega
          · exact (hmn (hall.mp hn)).elim
          · exact ⟨by simp [hread, hmn], by simp [hread, hlt, hexp]⟩
    | etimedout =>
      obtain ⟨hpos, hexp⟩ := ht hwaited
      rw [WaitRc.toRead, ite_self]
      constructor
      · intro hlaw
        refine ⟨by simp [hwaited], fun _ hn => ?_⟩
        have hlt := (hlaw.etimedout.mp rfl).1
        have := hall.mp hn
        omega
      · intro hfits
        have hmn : m ≠ n := fun h => hfits.etimedout hwaited (hall.mpr h)
        exact ⟨by simp [hread, hmn], by simp [hread, hexp]; omega⟩
  | fails hno hread =>
    cases hwaited : x.waited with
    | ecanceled => exact (hw hwaited).elim
    | ok =>
      rw [WaitRc.toRead]
      constructor
      · intro hlaw
        have hn := hlaw.ok.mp rfl
        exact ⟨fun _ => .inl (hn.symm.trans hread), by simp [hwaited]⟩
      · intro hfits
        rcases hfits.ok hwaited with rfl | hn | ⟨-, m, -, hm⟩
        · exact ⟨by simp [hread], by simp⟩
        · exact (hno n hn).elim
        · exact (hno m hm).elim
    | etimedout =>
      obtain ⟨hpos, hexp⟩ := ht hwaited
      rw [WaitRc.toRead]
      exact iff_of_true ⟨by simp [hread]; omega, by simp [hread, hpos, hexp]⟩ ⟨by simp [hwaited], fun _ => hno n⟩

theorem request_legal (hs : IsSize size) {r : Request} (h : request n x = some r) : drainMay size .consumer log r := by
  unfold request at h
  split at h
  · exact .inl (Option.some.inj h).symm
  · exact .inl (Option.some.inj h).symm
  · rename_i fillLevel hpc
    have hreq : r = .read (intMin fillLevel n) := (Option.some.inj h).symm
    generalize hm : intMin fillLevel n = m at hreq
    refine .inr ⟨m, hreq, fun hle => ?_⟩
    obtain ⟨-, -, hlt⟩ := intMin_le (hm.trans_le (hle.trans hs.le))
    exact hm ▸ hlt
  · cases h
  · cases h

/-- Without a return the call goes on with the data that it has not got yet. -/
private theorem Reads.goes (h : Reads size n deadline before x log now) {pc : ReadPc}
    (hpc : ∀ retval, x.pc ≠ .returned retval) (hlog : readBy (log ++ [d]) = readBy log)
    (hwaiting : ∀ level, pc = .waiting level → level < n)
    (hreading : ∀ v, pc = .reading v → d.request = .fillLevel ∧ d.result = .level v ∧ v = seenLevel size d.seen)
    (hret : ∀ retval, pc ≠ .returned retval) :
    Reads size n deadline before { x with pc } (log ++ [d]) now where
  data := hlog.trans h.data
  length := h.length
  unread _ := h.unread hpc
  waited := h.waited
  waiting := hwaiting
  reading v hv := ⟨log, d, rfl, hreading v hv⟩
  uncancelled hw := (hpc _ (h.uncancelled hw)).elim
  returned retval hr := (hret retval hr).elim

private theorem level_result (hs : IsSize size) (hpast : (drained hs).Past .consumer log d)
    (hreq : d.request = .fillLevel) : d.result = .level (seenLevel size d.seen) := by
  obtain ⟨⟨-, logs, -, hinv⟩, s', htrace⟩ := hpast
  have hinv : Drained size d.origin logs := hinv
  rw [hreq] at htrace
  exact trace_level_result hs hinv.ok htrace

/-- The final read gets the bytes that it asks for, or it fails, as it does exactly if nothing fits. -/
private theorem final_read (hs : IsSize size) (hpast : (drained hs).Past .consumer log d) {pre : List Entry} {v : Nat}
    (hlog : log = pre ++ [d₁]) (hreq₁ : d₁.request = .fillLevel) (hres₁ : d₁.result = .level v)
    (hv : v = seenLevel size d₁.seen) (hmin : intMin v n = m) (hreq : d.request = .read m) :
    (∃ bs, d.result = .bytes .ok bs ∧ bs.length = m ∧ m ≤ n ∧ Takes size n m d₁ d) ∨
      (d.result = .bytes .einval [] ∧ ∀ m', ¬Takes size n m' d₁ d) := by
  obtain ⟨⟨hmay, logs, hlogs, hinv⟩, s', htrace⟩ := hpast
  have hinv : Drained size d.origin logs := hinv
  have hv₀ : v ≤ used size d.origin := hinv.level pre d₁ v (hlogs.trans hlog) hreq₁ hres₁
  have hint : intMin (seenLevel size d₁.seen) n = m := by rw [← hv, hmin]
  rw [hreq] at htrace
  have hm := fun hle => (@intMin_le v n hle).2
  have hm₀ := fun hle => (@intMin_le v n hle).1
  rw [hmin] at hm hm₀
  have hsize := hs.le
  have hrace : m ≤ size → (d.result.rc = some .einval ↔ 0 < m ∧ Race size d.seen) := fun hle =>
    trace_wants hs hinv.ok rfl ((hm₀ (hle.trans hsize)).trans hv₀) htrace
  obtain ⟨bs, hres, hlen, hfits⟩ | hres := trace_read hs hinv.ok (fun hle => (hm (hle.trans hsize)).2) htrace
  · rw [hres] at hrace
    refine .inl ⟨bs, hres, hlen, (hm (hfits.trans hsize)).1, hint, hfits, ?_⟩
    have hno := (hrace hfits).not.mp (by simp [Result.rc])
    exact (Nat.eq_zero_or_pos m).imp_right fun hpos hr => hno ⟨hpos, hr⟩
  · rw [hres] at hrace
    refine .inr ⟨hres, fun m' hm' => ?_⟩
    obtain ⟨heq, hfits, hno⟩ := hm'
    rw [hint] at heq
    subst heq
    have hboth := (hrace hfits).mp rfl
    exact hno.elim hboth.1.ne' fun hno => hno hboth.2

theorem after_reads (hs : IsSize size) (h : Reads size n deadline before x log now)
    (hr : request n x = some d.request) (hpast : (drained hs).Past .consumer log d) :
    Reads size n deadline before (after n x d.result) (log ++ [d]) now := by
  cases hpc : x.pc with
  | measuring =>
    have hreq : d.request = .fillLevel := by simpa [request, hpc] using hr.symm
    unfold after
    rw [hpc, level_result hs hpast hreq]
    dsimp only
    refine h.goes (by simp [hpc]) (by simp [readBy_concat, hreq, readOf]) ?_ ?_ ?_
    · intro level hlevel
      split at hlevel <;> cases hlevel
      assumption
    · intro v hv
      split at hv <;> cases hv
    · intro retval hretval
      split at hretval <;> cases hretval
  | filling =>
    have hreq : d.request = .fillLevel := by simpa [request, hpc] using hr.symm
    have hres := level_result hs hpast hreq
    unfold after
    rw [hpc, hres]
    dsimp only
    refine h.goes (by simp [hpc]) (by simp [readBy_concat, hreq, readOf]) nofun ?_ nofun
    intro v hv
    cases hv
    exact ⟨hreq, hres, rfl⟩
  | reading v =>
    obtain ⟨pre, d₁, hlog, hreq₁, hres₁, hv⟩ := h.reading v hpc
    obtain ⟨hdata, hle⟩ := h.unread (by simp [hpc])
    have hwaited : x.waited ≠ .ecanceled := fun hw => by simpa [hpc] using h.uncancelled hw
    have hread : x.sizeRead = 0 := by rw [← h.length, hdata, List.length_nil]
    have hreq : d.request = .read (intMin v n) := by simpa [request, hpc] using hr.symm
    unfold after
    rw [hpc]
    dsimp only
    generalize hmin : intMin v n = m at hreq
    obtain ⟨bs, hres, hlen, hmn, htakes⟩ | ⟨hres, hno⟩ := final_read hs hpast hlog hreq₁ hres₁ hv hmin hreq
    · rw [hres]
      dsimp only
      rw [if_pos rfl, hmin]
      refine ⟨?_, hlen, by simp, h.waited, by simp, by simp, fun hw => (hwaited hw).elim, fun retval hret => ?_⟩
      · rw [readBy_concat, h.data, hdata, hreq, hres, List.append_nil]
        rfl
      · obtain rfl := ReadPc.returned.inj hret
        exact .inr ⟨hle, hwaited, pre, d₁, d, by simp [hlog], .reads m htakes hmn rfl⟩
    · rw [hres]
      dsimp only
      rw [if_neg (by decide)]
      refine ⟨?_, h.length, by simp, h.waited, by simp, by simp, fun hw => (hwaited hw).elim, fun retval hret => ?_⟩
      · rw [readBy_concat, h.data, hreq, hres]
        exact List.append_nil _
      · obtain rfl := ReadPc.returned.inj hret
        exact .inr ⟨hle, hwaited, pre, d₁, d, by simp [hlog], .fails hno hread⟩
  | waiting level => simp [request, hpc] at hr
  | returned retval => simp [request, hpc] at hr

/-- A wait returns to the loop or to the final read, or its code is returned. -/
theorem resume_reads (h : Reads size n deadline before x log now) (hw : (waits x).isSome) (rv : WaitRc)
    (hexpired : rv = .etimedout → Expired deadline now) : Reads size n deadline before (resume x rv) log now := by
  cases hpc : x.pc with
  | waiting level =>
    obtain ⟨hdata, hle⟩ := h.unread (by simp [hpc])
    have hread : x.sizeRead = 0 := by rw [← h.length, hdata, List.length_nil]
    refine ⟨h.data, h.length, fun _ => ⟨hdata, hle⟩, fun hrv => ?_, ?_, ?_, ?_, ?_⟩
    · exact ⟨Nat.zero_lt_of_lt (h.waiting level hpc), hexpired hrv⟩
    · cases rv <;> simp [resume]
    · cases rv <;> simp [resume]
    · cases rv <;> simp [resume]
    · cases rv <;> simp [resume, hread, hle]
  | measuring | filling | reading | returned => simp [waits, hpc] at hw

theorem preserved (hs : IsSize size) (deadline : Option Nat) :
    Blocking.Preserved (drained hs) (code n) deadline (Reads size n deadline before) where
  exclusive x hw := by
    cases hpc : x.pc <;> simp_all [code, waits, request]
  legal x r log hr := request_legal hs hr
  call x log now d h hr hpast := after_reads hs h hr hpast
  wait x log now rv h hw hexpired := resume_reads h hw rv hexpired
  later x log now now' h hle :=
    { h with waited := fun hw => (h.waited hw).imp_right fun ⟨d, hd, hnow⟩ => ⟨d, hd, hnow.trans hle⟩ }

end

theorem start_reads {size n : Nat} {deadline : Option Nat} {p : Pool Side Request Cbuf Result} {telling : Bool}
    {now : Nat} {cancelWaits : Bool} : Reads size n deadline (p.log .consumer) (start size n p telling now cancelWaits).client
      (p.log .consumer) now := by
  unfold start
  refine ⟨(List.append_nil _).symm, rfl, fun hret => ⟨rfl, ?_⟩, nofun, ?_, ?_, nofun, ?_⟩
  · by_contra hlt
    exact hret .error (by simp; omega)
  · dsimp only
    split <;> simp
  · dsimp only
    split <;> simp
  · dsimp only
    split <;> simp_all

/-- `gb_util_cbuf_read_b` begins with any fill level and read calls made before it and the writer in any call. In every
interleaving, where it returns, it has stored the next `*size_read` bytes that were written and removed those and no
others; with too large a size, and if a wait was cancelled, it returns an error and has removed nothing; and otherwise
the law of the return value holds exactly if its last two calls fit. -/
theorem read_b_law_iff (k : Nat) (hk : k ≤ 62) (n : Nat) (deadline : Option Nat)
    (p : Pool Side Request Cbuf Result) (hp : Pool.Reachable (perform (2 ^ k)) (drainMay (2 ^ k)) (newCbuf (2 ^ k)) p)
    (hidle : p.calls .consumer = none) (telling : Bool) (now : Nat) (cancelWaits : Bool) (s : Blocking ReadB)
    (hrun : Relation.ReflTransGen (Blocking.Step (2 ^ k) (code n) (drainMay (2 ^ k)) deadline fun _ => True)
      (start (2 ^ k) n p telling now cancelWaits) s) (retval : ReadRc) (hret : s.client.pc = .returned retval) :
    (readBy (s.pool.log .consumer) = readBy (p.log .consumer) ++ s.client.data ∧
      s.client.data.length = s.client.sizeRead ∧
      written (s.pool.log .producer) = readBy (s.pool.log .consumer) ++ contents (2 ^ k) s.pool.shared) ∧
    (((retval = .error ∧ 2 ^ k < n ∨ retval = .ecanceled ∧ n ≤ 2 ^ k) ∧ s.client.sizeRead = 0) ∨
      (n ≤ 2 ^ k ∧ ∃ pre d₁ d₂, s.pool.log .consumer = pre ++ [d₁, d₂] ∧
        (Lawful n s.client (Expired deadline s.latest) retval ↔
          Fits (2 ^ k) n s.client (Expired deadline s.latest) d₁ d₂))) ∧
    ∀ u, Relation.ReflTransGen (Blocking.Step (2 ^ k) (code n) (drainMay (2 ^ k)) deadline fun _ => True)
      (start (2 ^ k) n p telling now cancelWaits) u →
      Relation.ReflTransGen (Blocking.Step (2 ^ k) (code n) (drainMay (2 ^ k)) deadline fun _ => True) u s →
      u.wait ≠ none → u.cancelWaits → retval = .ecanceled := by
  have hs : IsSize (2 ^ k) := ⟨k, hk, rfl⟩
  have hK := (drained hs).sound (newCbuf_drained hs) hp
  have hstart : (start (2 ^ k) n p telling now cancelWaits).Coherent (code n) deadline :=
    Blocking.coherent_of_idle hidle rfl le_rfl
  have hP := @preserved (2 ^ k) n (p.log .consumer) hs deadline
  obtain ⟨hK', -, h⟩ := hP.run hK hstart start_reads hrun
  have hinv : Drained (2 ^ k) s.pool.shared s.pool.log := hK'.inv
  refine ⟨⟨h.data, h.length, hinv.queue⟩, ?_, fun u hbefore hafter hwait hcancel => ?_⟩
  · refine (h.returned retval hret).imp_right fun ⟨hle, hwaited, pre, d₁, d₂, hlog, hended⟩ => ?_
    exact ⟨hle, pre, d₁, d₂, hlog, hended.lawful_iff hwaited h.waited⟩
  · obtain ⟨-, hu, -⟩ := hP.run hK hstart start_reads hbefore
    have hend := Blocking.cancelled_run (R := fun x => x.pc = .returned .ecanceled) hP.exclusive (fun x => rfl)
      (fun x hx => by simp [code, request, waits, hx]) hu ⟨hcancel, .inl hwait⟩ hafter
    obtain ⟨-, hs', -⟩ := hP.run hK hstart start_reads hrun
    rcases hend.2 with hwait | hpc
    · have hw := hs'.waiting hwait
      simp [code, waits, hret] at hw
    · exact ReadPc.returned.inj (hret.symm.trans hpc)

open Blocking in
/-- One byte is read from an empty buffer of two, and arrives while the reader sleeps. -/
def awaitedRead : List Move :=
  Move.owns 5 ++ [.test] ++ Move.peers (.write [7]) 8 ++ [.wake, .leave] ++ Move.owns 19

open Blocking in
def lateRead : List Move :=
  Move.owns 5 ++ [.test, .tick 5, .expires, .leave] ++ Move.peers (.write [7]) 8 ++ Move.owns 14

open Blocking in
/-- The byte is there, and another one fills the buffer between the loads of the fill level in `gb_util_cbuf_read`. -/
def tornLevel : List Move :=
  Move.peers (.write [7]) 8 ++ Move.owns 8 ++ Move.peers (.write [8]) 8 ++ Move.owns 3

open Blocking in
def tornRead : List Move :=
  Move.peers (.write [7]) 8 ++ Move.owns 13 ++ Move.peers (.write [8]) 8 ++ Move.owns 2

def played (deadline : Option Nat) (ms : List Blocking.Move) : Option (Blocking ReadB) :=
  (start 2 1 (Pool.start (newCbuf 2)) false 0 false).play 2 (code 1) deadline ms

private theorem played_run {deadline : Option Nat} {ms : List Blocking.Move} {s : Blocking ReadB}
    (hms : ∀ r, .peer (some r) ∈ ms → ∃ data, r = .write data) (h : played deadline ms = some s) :
    Relation.ReflTransGen (Blocking.Step 2 (code 1) (drainMay 2) deadline fun _ => True)
      (start 2 1 (Pool.start (newCbuf 2)) false 0 false) s := by
  refine Blocking.play_run (fun r log hr => ?_) h
  obtain ⟨data, rfl⟩ := hms r hr
  exact ⟨trivial, trivial⟩

theorem read_b_law_iff_awaited :
    ∃ s : Blocking ReadB, s.client = ⟨.ok, 1, [7], .returned .ok⟩ ∧ readBy (s.pool.log .consumer) = [7] ∧
      ∃ pre d₁ d₂, s.pool.log .consumer = pre ++ [d₁, d₂] ∧ Fits 2 1 s.client (Expired none s.latest) d₁ d₂ := by
  have hplays : (played none awaitedRead).map Blocking.client = some ⟨.ok, 1, [7], .returned .ok⟩ := by decide +kernel
  obtain ⟨s, hs, hclient⟩ := Option.map_eq_some_iff.mp hplays
  have hrun := played_run (by simp [awaitedRead, Blocking.Move.owns, Blocking.Move.peers]) hs
  obtain ⟨⟨hdata, -, -⟩, hlaw, -⟩ :=
    read_b_law_iff 1 (by decide) 1 none _ .refl rfl false 0 false s hrun .ok (by rw [hclient])
  rw [hclient] at hdata hlaw
  refine ⟨s, hclient, hdata, ?_⟩
  obtain ⟨hno, -⟩ | ⟨-, pre, d₁, d₂, hlog, hiff⟩ := hlaw
  · simp at hno
  · rw [hclient]
    exact ⟨pre, d₁, d₂, hlog, hiff.mp ⟨by simp, by simp⟩⟩

/-- The byte that arrives after the timeout is read, and -ETIMEDOUT is returned; a fill level that is torn by the
writer is 0, and -ETIMEDOUT is returned without a deadline, or 0 without a byte. -/
theorem read_b_law_fails :
    (∃ s, Relation.ReflTransGen (Blocking.Step 2 (code 1) (drainMay 2) (some 5) fun _ => True)
        (start 2 1 (Pool.start (newCbuf 2)) false 0 false) s ∧ s.client = ⟨.etimedout, 1, [7], .returned .etimedout⟩ ∧
      ¬Lawful 1 s.client (Expired (some 5) s.latest) .etimedout) ∧
    (∃ s, Relation.ReflTransGen (Blocking.Step 2 (code 1) (drainMay 2) none fun _ => True)
        (start 2 1 (Pool.start (newCbuf 2)) false 0 false) s ∧ s.client = ⟨.ok, 0, [], .returned .etimedout⟩ ∧
      ¬Lawful 1 s.client (Expired none s.latest) .etimedout) ∧
    ∃ s, Relation.ReflTransGen (Blocking.Step 2 (code 1) (drainMay 2) none fun _ => True)
        (start 2 1 (Pool.start (newCbuf 2)) false 0 false) s ∧ s.client = ⟨.ok, 0, [], .returned .ok⟩ ∧
      ¬Lawful 1 s.client (Expired none s.latest) .ok := by
  refine ⟨?_, ?_, ?_⟩
  · have hplays : (played (some 5) lateRead).map Blocking.client = some ⟨.etimedout, 1, [7], .returned .etimedout⟩ := by
      decide +kernel
    obtain ⟨s, hs, hclient⟩ := Option.map_eq_some_iff.mp hplays
    refine ⟨s, played_run (by simp [lateRead, Blocking.Move.owns, Blocking.Move.peers]) hs, hclient, fun hlaw => ?_⟩
    rw [hclient] at hlaw
    exact Nat.lt_irrefl 1 (hlaw.etimedout.mp rfl).1
  · have hplays : (played none tornLevel).map Blocking.client = some ⟨.ok, 0, [], .returned .etimedout⟩ := by
      decide +kernel
    obtain ⟨s, hs, hclient⟩ := Option.map_eq_some_iff.mp hplays
    refine ⟨s, played_run (by simp [tornLevel, Blocking.Move.owns, Blocking.Move.peers]) hs, hclient, fun hlaw => ?_⟩
    obtain ⟨-, d, hd, -⟩ := hlaw.etimedout.mp rfl
    cases hd
  · have hplays : (played none tornRead).map Blocking.client = some ⟨.ok, 0, [], .returned .ok⟩ := by
      decide +kernel
    obtain ⟨s, hs, hclient⟩ := Option.map_eq_some_iff.mp hplays
    refine ⟨s, played_run (by simp [tornRead, Blocking.Move.owns, Blocking.Move.peers]) hs, hclient, fun hlaw => ?_⟩
    rw [hclient] at hlaw
    exact Nat.zero_ne_one (hlaw.ok.mp rfl)

end ReadB
end Glip.CircularBuffer
