import Glip.CircularBuffer.BlockingRuns
import Glip.CircularBuffer.BlockingWrite

/-! The timeout of `gb_util_cbuf_write_b`: how often it goes round its loop while the reader removes nothing. -/
namespace Glip.CircularBuffer
open Foundation

def WritePc.left : WritePc → Nat
  | probing => 4
  | writing _ => 3
  | checking => 2
  | waiting => 1
  | returned _ => 0

namespace WriteB

/-- The iterations that have begun since the reader last removed a byte. -/
def laps (s t : Blocking WriteB) (n : Nat) : Nat :=
  if t.pool.shared.rdPtr ≠ s.pool.shared.rdPtr then 0
  else if s.client.pc ≠ .probing ∧ t.client.pc = .probing then n + 1
  else n

def lapsAlong (f : Nat → Blocking WriteB) : Nat → Nat
  | 0 => 1
  | i + 1 => laps (f i) (f (i + 1)) (lapsAlong f i)

/-- By the level test of a wait the reader has removed some of the bytes, but not all, or the waits have been
cancelled with bytes in the buffer. -/
def Tests (size : Nat) (s : Blocking WriteB) : Prop :=
  0 < used size s.pool.shared ∧ (used size s.pool.shared < size ∨ s.cancelWaits)

/-- The room that the loop asks for fits into an `unsigned int`. -/
def RoomFits (size : Nat) (s : Blocking WriteB) : Prop :=
  s.client.pc = .probing → size < used size s.pool.shared + 2 ^ 32

/-- The timeout is kept: not more than one iteration begins once the reader removes nothing, a call that ends early
has passed the deadline or has been cancelled, and a wait ends when the level has changed from full, the
deadline has passed or it is cancelled, and sleeps only while the buffer is full. -/
structure Honours (size : Nat) (data : List UInt8) (deadline : Nat) (s : Blocking WriteB) (n : Nat) : Prop where
  once : n ≤ 1
  returned : ∀ retval, s.client.pc = .returned retval → s.client.sizeDone < data.length →
    (retval = .etimedout ∧ deadline ≤ s.latest) ∨ (retval = .ecanceled ∧ s.cancelWaits)
  back : ∀ rv, s.wait = some (.leaving rv) →
    used size s.pool.shared < size ∨ deadline ≤ s.latest ∨ s.cancelWaits
  asleep : s.wait = some .asleep → used size s.pool.shared = size

def Returned (s : Blocking WriteB) : Prop := ∃ retval, s.client.pc = .returned retval

def Filling (size : Nat) (data : List UInt8) (s : Blocking WriteB) : Prop :=
  match s.client.pc with
  | .probing => ∀ c, s.pool.calls .producer = some c → used size c.origin = used size s.pool.shared
  | .writing n => n = data.length - s.client.sizeDone ∨ used size s.pool.shared + n = size
  | .checking => used size s.pool.shared = size
  | .waiting => used size s.pool.shared = size ∧ (s.wait = some (.leaving .ok) → s.cancelWaits)
  | .returned _ => True

structure Paced (size : Nat) (data : List UInt8) (deadline : Nat) (s : Blocking WriteB) (n : Nat) : Prop where
  once : n ≤ 1
  filling : n = 1 → Filling size data s
  back : ∀ rv, s.wait = some (.leaving rv) → rv ≠ .ecanceled ∧
    (used size s.pool.shared < size ∨ deadline ≤ s.latest ∨ s.cancelWaits)
  awake : s.wait ≠ some .asleep
  returned : ∀ retval, s.client.pc = .returned retval → retval = .ok ∨
    (retval = .etimedout ∧ deadline ≤ s.latest) ∨ (retval = .ecanceled ∧ s.cancelWaits)

section Steps
variable {size deadline n : Nat} {data : List UInt8} {before : List Entry} {s t : Blocking WriteB}

theorem laps_of_same (hrd : t.pool.shared.rdPtr = s.pool.shared.rdPtr) (hc : t.client = s.client) :
    laps s t n = n := by
  simp [laps, hrd, hc]

theorem laps_of_ne_probing (hrd : t.pool.shared.rdPtr = s.pool.shared.rdPtr) (hc : t.client.pc ≠ .probing) :
    laps s t n = n := by
  simp [laps, hrd, hc]

theorem laps_of_probing (hrd : t.pool.shared.rdPtr = s.pool.shared.rdPtr) (hs : s.client.pc ≠ .probing)
    (ht : t.client.pc = .probing) : laps s t n = n + 1 := by
  simp [laps, hrd, hs, ht]

theorem filling_probing (hpc : s.client.pc = .probing) : Filling size data s ↔
    ∀ c, s.pool.calls .producer = some c → used size c.origin = used size s.pool.shared := by
  rw [Filling, hpc]

theorem filling_writing {m : Nat} (hpc : s.client.pc = .writing m) : Filling size data s ↔
    m = data.length - s.client.sizeDone ∨ used size s.pool.shared + m = size := by
  rw [Filling, hpc]

theorem filling_checking (hpc : s.client.pc = .checking) : Filling size data s ↔ used size s.pool.shared = size := by
  rw [Filling, hpc]

theorem filling_waiting (hpc : s.client.pc = .waiting) : Filling size data s ↔
    used size s.pool.shared = size ∧ (s.wait = some (.leaving .ok) → s.cancelWaits) := by
  rw [Filling, hpc]

theorem filling_returned {retval : WaitRc} (hpc : s.client.pc = .returned retval) : Filling size data s := by
  rw [Filling, hpc]
  trivial

/-- A step after which the loop is where it was, and has begun a call at most. -/
private theorem Paced.quiet (h : Paced size data deadline s n) (hclient : t.client = s.client)
    (hwait : t.wait = s.wait) (hrd : t.pool.shared.rdPtr = s.pool.shared.rdPtr)
    (hused : used size t.pool.shared = used size s.pool.shared)
    (horigin : ∀ c, t.pool.calls .producer = some c → c.origin = s.pool.shared ∨
      ∃ c', s.pool.calls .producer = some c' ∧ c'.origin = c.origin)
    (hlatest : s.latest ≤ t.latest) (hcancel : s.cancelWaits → t.cancelWaits) :
    Paced size data deadline t (laps s t n) := by
  rw [laps_of_same hrd hclient]
  refine ⟨h.once, fun hn => ?_, fun rv hrv => ?_, hwait ▸ h.awake, fun rv hrv => ?_⟩
  · have hfill := h.filling hn
    unfold Filling at hfill ⊢
    rw [hclient, hwait, hused]
    split at hfill
    · intro c hc
      rcases horigin c hc with ho | ⟨c', hc', ho⟩
      · rw [ho]
      · exact ho ▸ hfill c' hc'
    · exact hfill
    · exact hfill
    · exact ⟨hfill.1, fun hok => hcancel (hfill.2 hok)⟩
    · trivial
  · obtain ⟨hne, hback⟩ := h.back rv (hwait ▸ hrv)
    rw [hused]
    exact ⟨hne, hback.imp_right (Or.imp hlatest.trans' hcancel)⟩
  · rcases h.returned rv (hclient ▸ hrv) with hok | ⟨ht, hd⟩ | ⟨hcan, hc⟩
    · exact .inl hok
    · exact .inr (.inl ⟨ht, hd.trans hlatest⟩)
    · exact .inr (.inr ⟨hcan, hcancel hc⟩)

/-- A call that has ended before the call returns, or with everything written. -/
private theorem Paced.called (hwait : t.wait = none)
    (hret : ∀ retval, t.client.pc = .returned retval → retval = .ok) (hn : n ≤ 1)
    (hfill : n = 1 → Filling size data t) : Paced size data deadline t n where
  once := hn
  filling := hfill
  back rv hrv := by
    rw [hwait] at hrv
    cases hrv
  awake hasleep := by
    rw [hwait] at hasleep
    cases hasleep
  returned retval hr := .inl (hret retval hr)

inductive CallEnds (size : Nat) (data : List UInt8) (s : Blocking WriteB) (origin after : Cbuf) : WriteB → Prop where
  | probed (free n : Nat) : s.client.pc = .probing → used size after = used size s.pool.shared →
      used size s.pool.shared + free ≤ size → size ≤ used size origin + free →
      n = min (data.length - s.client.sizeDone) (free % 2 ^ 32) →
      CallEnds size data s origin after { s.client with pc := .writing n }
  | wrote (n : Nat) : s.client.pc = .writing n → used size after = used size s.pool.shared + n →
      CallEnds size data s origin after
        ⟨s.client.sizeDone + n, if s.client.sizeDone + n = data.length then .returned .ok else .checking⟩
  | checked (free : Nat) : s.client.pc = .checking → used size after = used size s.pool.shared →
      used size s.pool.shared + free ≤ size → size ≤ used size origin + free →
      CallEnds size data s origin after { s.client with pc := if free = 0 then .waiting else .probing }

variable {hs : IsSize size} {c : Foundation.Call Request Cbuf Result} {update : Cbuf → Cbuf}
  {next : Cbuf → Prog Cbuf Result} {a : Result} {D : Option Nat}

theorem call_ends (hK : (roomed hs []).Holds s.pool) (hc : s.Coherent (code data) D)
    (hw : Written data before s.client (s.pool.log .producer)) (hcall : s.pool.calls .producer = some c)
    (hrest : c.rest = .act update next) (hret : next s.pool.shared = .ret a) :
    (update s.pool.shared).rdPtr = s.pool.shared.rdPtr ∧
      CallEnds size data s c.origin (update s.pool.shared) (after data s.client a) := by
  have hr : request data s.client = some c.request := hc.running c hcall
  unfold request at hr
  split at hr
  case h_1 hpc =>
    obtain ⟨free, rfl, hrd, hused, hle, hge⟩ := roomed_freeLevel hK hcall (Option.some.inj hr).symm hrest hret
    refine ⟨hrd, ?_⟩
    unfold after
    rw [hpc]
    refine .probed free _ hpc hused hle hge ?_
    split <;> omega
  case h_2 hpc =>
    obtain ⟨free, rfl, hrd, hused, hle, hge⟩ := roomed_freeLevel hK hcall (Option.some.inj hr).symm hrest hret
    refine ⟨hrd, ?_⟩
    unfold after
    rw [hpc]
    exact .checked free hpc hused hle hge
  case h_3 n hpc =>
    obtain ⟨hn, pre, d, free, hlog, hdreq, hdres, hfree⟩ := hw.piece n hpc
    have hlen : ((data.drop s.client.sizeDone).take n).length = n := by
      rw [List.length_take, List.length_drop]
      exact Nat.min_eq_left hn
    obtain ⟨⟨-, logs, hlogs, hinv⟩, -⟩ := hK.running .producer c hcall
    have hinv : Roomed size [] c.origin logs := hinv
    have hroom := hinv.room pre d free (hlogs.trans hlog) hdreq hdres
    obtain ⟨rfl, hrd, hused⟩ := roomed_write hK hcall (Option.some.inj hr).symm (by omega) hrest hret
    rw [hlen] at hused
    refine ⟨hrd, ?_⟩
    unfold after
    rw [hpc]
    exact .wrote n hpc hused
  case h_4 => cases hr
  case h_5 => cases hr

/-- A full iteration after the reader's last removal leaves no room or no data. -/
private theorem Paced.call_ends (h : Paced size data deadline s n) (hroom : RoomFits size s)
    (hle : s.client.sizeDone ≤ data.length) (hcall : s.pool.calls .producer = some c) (hwait : t.wait = none)
    (hidle : t.pool.calls .producer = none) (hrd : t.pool.shared.rdPtr = s.pool.shared.rdPtr)
    (hends : CallEnds size data s c.origin t.pool.shared t.client) :
    Paced size data deadline t (WriteB.laps s t n) := by
  have hn := h.once
  generalize hu : t.pool.shared = u at hends hrd
  generalize hx : t.client = x at hends
  cases hends with
  | probed free m hpc hused hle hge hm =>
    have hlaps : WriteB.laps s t n = n := laps_of_ne_probing (hu ▸ hrd) (by simp [hx])
    rw [hlaps]
    refine .called hwait (by simp [hx]) hn fun hone => ?_
    have hsame : used size c.origin = used size s.pool.shared := (filling_probing hpc).mp (h.filling hone) c hcall
    have hfits := hroom hpc
    rw [Nat.mod_eq_of_lt (by omega)] at hm
    rw [filling_writing (m := m) (by rw [hx]), hx, hu]
    dsimp only
    omega
  | wrote m hpc hused =>
    have hlaps : WriteB.laps s t n = n := by
      refine laps_of_ne_probing (hu ▸ hrd) ?_
      rw [hx]
      dsimp only
      split <;> simp
    rw [hlaps]
    refine .called hwait ?_ hn fun hone => ?_
    · rw [hx]
      dsimp only
      split <;> simp
    · have hfill := (filling_writing hpc).mp (h.filling hone)
      by_cases hdone : s.client.sizeDone + m = data.length
      · exact filling_returned (by rw [hx, if_pos hdone])
      · rw [filling_checking (by rw [hx, if_neg hdone]), hu]
        omega
  | checked free hpc hused hle hge =>
    by_cases hfree : free = 0
    · have hlaps : WriteB.laps s t n = n := laps_of_ne_probing (hu ▸ hrd) (by simp [hx, hfree])
      rw [hlaps]
      refine .called hwait (by simp [hx, hfree]) hn fun hone => ?_
      have hfull := (filling_checking hpc).mp (h.filling hone)
      rw [filling_waiting (by rw [hx, if_pos hfree]), hu, hwait]
      exact ⟨hused.trans hfull, nofun⟩
    · have hzero : n = 0 := by
        refine (Nat.le_one_iff_eq_zero_or_eq_one.mp hn).resolve_right fun hone => hfree ?_
        have hfull := (filling_checking hpc).mp (h.filling hone)
        omega
      have hlaps : WriteB.laps s t n = n + 1 := laps_of_probing (hu ▸ hrd) (by simp [hpc]) (by simp [hx, hfree])
      rw [hlaps]
      refine .called hwait (by simp [hx, hfree]) (by omega) fun _ => ?_
      rw [filling_probing (by rw [hx, if_neg hfree]), hidle]
      exact nofun

/-- A wait goes on or ends, while the loop stays where it is. -/
private theorem Paced.woken (h : Paced size data deadline s n) (hpc : s.client.pc = .waiting)
    (hpool : t.pool = s.pool) (hclient : t.client = s.client) (hlatest : t.latest = s.latest)
    (hcancel : t.cancelWaits = s.cancelWaits) (rv : WaitRc) (hrv : t.wait = some (.leaving rv))
    (hback : used size s.pool.shared < size ∨ deadline ≤ s.latest ∨ s.cancelWaits) (hne : rv ≠ .ecanceled)
    (hok : rv = .ok → used size s.pool.shared < size ∨ s.cancelWaits) :
    Paced size data deadline t (WriteB.laps s t n) := by
  rw [laps_of_same (by rw [hpool]) hclient]
  refine ⟨h.once, fun hone => ?_, fun rv' hrv' => ?_, by simp [hrv], fun retval hret => ?_⟩
  · have hfill := (filling_waiting hpc).mp (h.filling hone)
    rw [filling_waiting (by rw [hclient, hpc]), hpool, hcancel, hrv]
    refine ⟨hfill.1, fun hleave => ?_⟩
    obtain rfl : rv = .ok := by simpa using hleave
    exact (hok rfl).resolve_left hfill.1.not_lt
  · obtain rfl : rv = rv' := by simpa [hrv] using hrv'
    rw [hpool, hlatest, hcancel]
    exact ⟨hne, hback⟩
  · rw [hclient, hpc] at hret
    cases hret

/-- The loop goes on after a wait, or its code is returned. -/
private theorem Paced.left (h : Paced size data deadline s n) (hc : s.Coherent (code data) (some deadline))
    (hpc : s.client.pc = .waiting) {rv : WaitRc} (hrv : s.wait = some (.leaving rv)) (hpool : t.pool = s.pool)
    (hwait : t.wait = none) (hlatest : t.latest = s.latest) (hcancel : t.cancelWaits = s.cancelWaits)
    (hclient : t.client = resume s.client (if s.cancelWaits then .ecanceled else rv)) :
    Paced size data deadline t (WriteB.laps s t n) := by
  have hrd : t.pool.shared.rdPtr = s.pool.shared.rdPtr := by rw [hpool]
  obtain ⟨hne, -⟩ := h.back rv hrv
  by_cases hok : s.cancelWaits = false ∧ rv = .ok
  · -- with a full buffer the wait would have been cancelled
    have hzero : n = 0 := by
      refine (Nat.le_one_iff_eq_zero_or_eq_one.mp h.once).resolve_right fun hone => ?_
      have hfill := (filling_waiting hpc).mp (h.filling hone)
      rw [hrv, hok.1, hok.2] at hfill
      exact Bool.false_ne_true (hfill.2 rfl)
    have ht : t.client.pc = .probing := by simp [hclient, resume, hok]
    rw [laps_of_probing hrd (by simp [hpc]) ht]
    refine .called hwait (by simp [ht]) (by omega) fun _ => ?_
    rw [filling_probing ht]
    intro c hcall
    have hr : request data s.client = some c.request := hc.running c (hpool ▸ hcall)
    simp [request, hpc] at hr
  · have ht : t.client.pc = .returned (if s.cancelWaits then .ecanceled else rv) := by
      rw [hclient]
      unfold resume
      rw [if_pos]
      split <;> simp_all
    rw [laps_of_ne_probing hrd (by simp [ht])]
    refine ⟨h.once, fun _ => filling_returned ht, by simp [hwait], by simp [hwait], fun retval hr => .inr ?_⟩
    obtain rfl := WritePc.returned.inj (ht.symm.trans hr)
    rw [hlatest, hcancel]
    split
    · exact .inr ⟨rfl, ‹_›⟩
    · cases rv with
      | ok => simp_all
      | ecanceled => exact (hne rfl).elim
      | etimedout =>
        obtain ⟨d, hd, hle⟩ := hc.expired hrv
        obtain rfl := Option.some.inj hd
        exact .inl ⟨rfl, hle⟩

theorem Paced.step (h : Paced size data deadline s n) (hs : IsSize size) (hK : (roomed hs []).Holds s.pool)
    (hc : s.Coherent (code data) (some deadline)) (hw : Written data before s.client (s.pool.log .producer))
    (hroom : RoomFits size s)
    (hstep : Blocking.Step size (code data) roomMay (some deadline) (Tests size) s t) :
    Paced size data deadline t (WriteB.laps s t n) := by
  have hwaiting : ∀ level, waits s.client = some level → s.client.pc = .waiting := by
    intro level hlevel
    unfold waits at hlevel
    split at hlevel
    · assumption
    · cases hlevel
  cases hstep with
  | peer q htelling hq =>
    have hq : Pool.StepBy (perform size) roomMay .consumer s.pool q := hq
    have hrely : WriterRely size True s.pool.shared q.shared :=
      (roomed hs []).stepBy_rely (j := .producer) hK (by decide) hq
    have hcalls := (hq.others (j := .producer) (by decide)).1
    have hle := (hrely.ok hK.inv.ok).2
    by_cases hrd : q.shared.rdPtr = s.pool.shared.rdPtr
    · have hused : used size q.shared = used size s.pool.shared := by
        rw [used, used, hrely.wr, hrd]
      refine h.quiet rfl rfl hrd hused (fun c hc => ?_) le_rfl id
      exact .inr ⟨c, hcalls ▸ hc, rfl⟩
    · have hzero : WriteB.laps s { s with pool := q, telling := s.moving (code data) } n = 0 := by simp [WriteB.laps, hrd]
      rw [hzero]
      refine ⟨Nat.zero_le 1, by simp, fun rv hrv => ?_, h.awake, h.returned⟩
      obtain ⟨hne, hback⟩ := h.back rv hrv
      exact ⟨hne, hback.imp_left hle.trans_lt⟩
  | call r hr hnone =>
    have hlong : ∀ a, perform size r ≠ .ret a := request_long hr
    rw [Blocking.settle_of_ne_ret hlong, Pool.settle_of_ne_ret hlong]
    refine h.quiet rfl rfl rfl rfl (fun c hc => .inl ?_) le_rfl id
    dsimp only [code] at hc
    rw [Function.update_self] at hc
    cases hc
    rfl
  | act c update next hcall hrest =>
    have hwait : s.wait = none := hc.awake (@preserved size data before hs none).exclusive (hc.running c hcall)
    by_cases hret : ∃ a, next s.pool.shared = .ret a
    · obtain ⟨a, ha⟩ := hret
      rw [Blocking.settle_of_ret ha, Pool.settle_of_ret ha]
      obtain ⟨hrd, hends⟩ := WriteB.call_ends hK hc hw hcall hrest ha
      refine h.call_ends hroom hw.le hcall hwait ?_ hrd hends
      exact Function.update_self (Side.producer) none s.pool.calls
    · have hret := not_exists.mp hret
      rw [Blocking.settle_of_ne_ret hret, Pool.settle_of_ne_ret hret]
      have hstay := roomed_stay hK hcall hrest hret
      refine h.quiet rfl rfl hstay.rd hstay.used (fun c' hc' => .inr ⟨c, hcall, ?_⟩) le_rfl id
      dsimp only [code] at hc'
      rw [Function.update_self] at hc'
      cases hc'
      rfl
  | lockExpires level d hwait hlevel hd hnow hlocked =>
    obtain rfl := Option.some.inj hd
    exact h.woken (hwaiting level hlevel) rfl rfl rfl rfl .etimedout rfl (.inr (.inl (hnow.trans hc.clock)))
      (by decide) (by simp)
  | test level hwait hlevel htelling htest =>
    have hpc := hwaiting level hlevel
    obtain rfl : level = 0 := by simpa [code, waits, hpc] using hlevel.symm
    have hne : levelIn size s.pool.shared ≠ 0 := by
      rw [levelIn_eq_used hs hK.inv.ok]
      exact htest.1.ne'
    rw [if_pos hne]
    exact h.woken hpc rfl rfl rfl rfl .ok rfl (htest.2.imp_right .inr) (by decide) fun _ => htest.2
  | wake hasleep => exact (h.awake hasleep).elim
  | expires d hasleep hd hnow => exact (h.awake hasleep).elim
  | leave rv hrv =>
    obtain ⟨level, hlevel⟩ := Option.isSome_iff_exists.mp (hc.waiting (by simp [hrv]))
    exact h.left hc (hwaiting level hlevel) hrv rfl rfl rfl rfl rfl
  | unlock => exact h.quiet rfl rfl rfl rfl (fun c hc => .inr ⟨c, hc, rfl⟩) le_rfl id
  | tick now => exact h.quiet rfl rfl rfl rfl (fun c hc => .inr ⟨c, hc, rfl⟩) (le_max_left _ _) id
  | cancel => exact h.quiet rfl rfl rfl rfl (fun c hc => .inr ⟨c, hc, rfl⟩) le_rfl fun _ => rfl

/-- How far the loop is from its return, with one more iteration to come after the reader's last removal. -/
def distance (s : Blocking WriteB) (n : Nat) : Nat := 5 * (1 - n) + s.client.pc.left

/-- Each call and each wait that ends brings the loop nearer to its return. -/
theorem distance_lt (hK : (roomed hs []).Holds s.pool) (hc : s.Coherent (code data) D)
    (hw : Written data before s.client (s.pool.log .producer)) {tests : Blocking WriteB → Prop}
    (hstep : Blocking.Step size (code data) roomMay D tests s t) (hends : Blocking.Ends (code data) s t)
    (hrd : t.pool.shared.rdPtr = s.pool.shared.rdPtr) (hone : laps s t n ≤ 1) :
    distance t (laps s t n) < distance s n := by
  have hlong : ∀ r, (code data).request s.client = some r → ∀ a, perform size r ≠ .ret a :=
    fun r hr => request_long hr
  rcases hstep.ends hlong hends with ⟨c, update, next, a, hcall, hrest, ha, hshared, hclient⟩ | ⟨rv, hrv, -, hclient⟩
  · obtain ⟨-, hcases⟩ := call_ends hK hc hw hcall hrest ha
    rw [← hshared] at hcases
    have hclient : t.client = after data s.client a := hclient
    rw [← hclient] at hcases
    generalize hx : t.client = x at hcases
    cases hcases with
    | probed free m hpc hused hle hge hm =>
      rw [laps_of_ne_probing hrd (by simp [hx])]
      simp [distance, hpc, hx, WritePc.left]
    | wrote m hpc hused =>
      by_cases hdone : s.client.sizeDone + m = data.length
      · rw [if_pos hdone] at hx
        rw [laps_of_ne_probing hrd (by simp [hx])]
        simp [distance, hpc, hx, WritePc.left]
      · rw [if_neg hdone] at hx
        rw [laps_of_ne_probing hrd (by simp [hx])]
        simp [distance, hpc, hx, WritePc.left]
    | checked free hpc hused hle hge =>
      by_cases hfree : free = 0
      · rw [laps_of_ne_probing hrd (by simp [hx, hfree])]
        simp [distance, hpc, hx, hfree, WritePc.left]
      · rw [laps_of_probing hrd (by simp [hpc]) (by simp [hx, hfree])] at hone ⊢
        simp [distance, hpc, hx, hfree, WritePc.left]
        omega
  · obtain ⟨level, hlevel⟩ := Option.isSome_iff_exists.mp (hc.waiting (by simp [hrv]))
    have hpc : s.client.pc = .waiting := by
      simp only [code, waits] at hlevel
      split at hlevel
      · assumption
      · cases hlevel
    have hclient : t.client = resume s.client (if s.cancelWaits then .ecanceled else rv) := hclient
    generalize (if s.cancelWaits then WaitRc.ecanceled else rv) = rv' at hclient
    by_cases hok : rv' = .ok
    · have ht : t.client.pc = .probing := by simp [hclient, resume, hok]
      rw [laps_of_probing hrd (by simp [hpc]) ht] at hone ⊢
      simp [distance, hpc, ht, WritePc.left]
      omega
    · have ht : t.client.pc = .returned rv' := by simp [hclient, resume, hok]
      rw [laps_of_ne_probing hrd (by simp [ht])]
      simp [distance, hpc, ht, WritePc.left]

structure Going (hs : IsSize size) (data : List UInt8) (deadline : Nat) (before : List Entry) (s : Blocking WriteB) :
    Prop where
  pool : (roomed hs []).Holds s.pool
  coherent : s.Coherent (code data) (some deadline)
  written : Written data before s.client (s.pool.log .producer)
  unfinished : s.pool.Unfinished

theorem Going.step (h : Going hs data deadline before s) {tests : Blocking WriteB → Prop}
    (hstep : Blocking.Step size (code data) roomMay (some deadline) tests s t) : Going hs data deadline before t := by
  have hP := @preserved size data before hs (some deadline)
  obtain ⟨hpool, hcoherent, hwritten⟩ := hP.run h.pool h.coherent h.written (.single hstep)
  exact ⟨hpool, hcoherent, hwritten, Blocking.run_unfinished hP.legal h.unfinished (.single hstep)⟩

theorem Going.acts (h : Going hs data deadline before s) (hc : s.pool.calls .producer = some c) :
    ∃ update next, c.rest = .act update next := by
  cases hrest : c.rest with
  | ret a => exact (h.unfinished .producer c hc a hrest).elim
  | fault => exact (roomed_no_fault hs h.pool hc hrest).elim
  | act update next => exact ⟨update, next, rfl⟩

/-- The loop can go on once the deadline has passed. -/
theorem Going.can_advance (h : Going hs data deadline before s) (hnow : deadline ≤ s.now) (hret : ¬Returned s) :
    ∃ t, Blocking.Step size (code data) roomMay (some deadline) (fun _ => True) s t ∧
      Blocking.Advances (code data) s t := by
  refine Blocking.can_advance (fun c => h.acts) (fun r hr => request_long hr) rfl hnow ?_
  cases hpc : s.client.pc with
  | probing | writing | checking => exact .inl (by simp [code, request, hpc])
  | waiting => exact .inr (by simp [code, waits, hpc])
  | returned retval => exact (hret ⟨retval, hpc⟩).elim

theorem Paced.honours (h : Paced size data deadline s n) (hw : Written data before s.client (s.pool.log .producer)) :
    Honours size data deadline s n where
  once := h.once
  returned retval hret hshort := by
    refine (h.returned retval hret).resolve_left fun hok => ?_
    exact hshort.ne ((hw.returned retval hret).mp hok)
  back rv hrv := (h.back rv hrv).2
  asleep hasleep := (h.awake hasleep).elim

end Steps

/-- `gb_util_cbuf_write_b` begins with any calls made before it, with the reader in any call and any clock. In a run
in which every level test of a wait meets `Tests` it honours its timeout; and once the reader removes nothing and
the deadline has passed, it returns. -/
theorem write_b_timeout (k : Nat) (hk : k ≤ 62) (data : List UInt8) (deadline : Nat)
    (p : Pool Side Request Cbuf Result) (hp : Pool.Reachable (perform (2 ^ k)) roomMay (newCbuf (2 ^ k)) p)
    (hidle : p.calls .producer = none) (telling : Bool) (now : Nat) (cancelWaits : Bool) (f : Nat → Blocking WriteB)
    (hf : Blocking.Runs (2 ^ k) (code data) roomMay (some deadline) (Tests (2 ^ k)) (start p telling now cancelWaits) f)
    (hroom : ∀ i, RoomFits (2 ^ k) (f i)) :
    (∀ i, Honours (2 ^ k) data deadline (f i) (lapsAlong f i)) ∧
      ∀ i, (∀ j ≥ i, (f j).pool.shared.rdPtr = (f i).pool.shared.rdPtr ∧ deadline ≤ (f j).now) →
        Blocking.Fair (2 ^ k) (code data) roomMay (some deadline) (fun _ => True) f →
        ∃ j ≥ i, Returned (f j) := by
  have hs : IsSize (2 ^ k) := ⟨k, hk, rfl⟩
  have hkeeps : ∀ i, Going hs data deadline (p.log .producer) (f i) ∧
      Paced (2 ^ k) data deadline (f i) (lapsAlong f i) := by
    intro i
    induction i with
    | zero =>
      rw [hf.start]
      refine ⟨⟨(roomed hs []).sound (newCbuf_roomed hs) hp, coherent_start hidle telling now cancelWaits _, start_written,
        hp.unfinished⟩, le_rfl, fun _ c hc => ?_, nofun, nofun, nofun⟩
      have hc : p.calls .producer = some c := hc
      rw [hidle] at hc
      cases hc
    | succ i ih =>
      obtain ⟨h, hpaced⟩ := ih
      exact ⟨h.step (hf.step i), hpaced.step hs h.pool h.coherent h.written (hroom i) (hf.step i)⟩
  refine ⟨fun i => (hkeeps i).2.honours (hkeeps i).1.written, fun i hstalled hfair => ?_⟩
  have hrd : ∀ j ≥ i, (f (j + 1)).pool.shared.rdPtr = (f j).pool.shared.rdPtr := fun j hj =>
    (hstalled (j + 1) (Nat.le_succ_of_le hj)).1.trans (hstalled j hj).1.symm
  refine hf.reaches hfair (fun j => distance (f j) (lapsAlong f j)) i (fun j hj hret => ?_) (fun j hj hret hends => ?_)
    fun j hj hret hends => ?_
  · exact (hkeeps j).1.can_advance (hstalled j hj).2 hret
  · have h := (hkeeps j).1
    exact distance_lt h.pool h.coherent h.written (hf.step j) hends (hrd j hj) (hkeeps (j + 1)).2.once
  · have hclient := ((hf.step j).left hends).1
    have hlaps : lapsAlong f (j + 1) = lapsAlong f j := laps_of_same (hrd j hj) hclient
    dsimp only [distance]
    rw [hlaps, hclient]

open Blocking in
def deadlinePasses : List Move := Move.owns 17 ++ Move.peers (.read 1) 6 ++ [.tick 5]

private theorem deadlinePasses_plays :
    ((start (Pool.start (newCbuf 2)) false 0 false).play 2 (code [1, 2, 3, 4]) (some 5) deadlinePasses).isSome := by
  decide +kernel

def partlyRead : Blocking WriteB :=
  ((start (Pool.start (newCbuf 2)) false 0 false).play 2 (code [1, 2, 3, 4]) (some 5) deadlinePasses).get
    deadlinePasses_plays

open Blocking in
def readerHolds : List Move :=
  [.leave] ++ Move.owns 17 ++ [.peer (some (.read 1))] ++ List.replicate 5 (.peer none) ++ [.lockExpires, .leave]

private theorem readerHolds_plays :
    (({ partlyRead with wait := some (.leaving .ok) } : Blocking WriteB).play 2 (code [1, 2, 3, 4]) (some 5)
      readerHolds).isSome := by
  decide +kernel

private theorem schedules_legal (r : Request) (log : List Entry)
    (h : .peer (some r) ∈ deadlinePasses ∨ .peer (some r) ∈ readerHolds) : roomMay .consumer log r := by
  simp [deadlinePasses, readerHolds, Blocking.Move.owns, Blocking.Move.peers] at h
  rw [h]
  trivial

/-- Nothing is read meanwhile, and the clock stands. -/
private theorem readerHolds_stays : ∀ m < 27, (({ partlyRead with wait := some (.leaving .ok) } : Blocking WriteB).play 2
    (code [1, 2, 3, 4]) (some 5) (readerHolds.take m)).map (fun u => (u.pool.shared.rdPtr, u.now)) = some (1, 5) := by
  decide +kernel

/-- The call is over with three of four bytes written. -/
private structure GivenUp (s : Blocking WriteB) : Prop where
  client : s.client = ⟨3, .returned .etimedout⟩
  calls : s.pool.calls .producer = none
  wait : s.wait = none

/-- From the level test on: the loop goes on and gives up at its next timed lock. -/
private theorem gives_up : ∃ g, Blocking.Runs 2 (code [1, 2, 3, 4]) roomMay (some 5) (Tests 2)
      { partlyRead with wait := some (.leaving .ok) } g ∧
    (∀ i, (g i).pool.shared.rdPtr = 1 ∧ 5 ≤ (g i).now) ∧ ∀ i, GivenUp (g (26 + i)) := by
  have hplay := (Option.some_get readerHolds_plays).symm
  generalize hs : (({ partlyRead with wait := some (.leaving .ok) } : Blocking WriteB).play 2 (code [1, 2, 3, 4])
    (some 5) readerHolds).get readerHolds_plays = s at hplay
  have hend : s.client = ⟨3, .returned .etimedout⟩ ∧ s.pool.calls .producer = none ∧ s.wait = none ∧ s.now ≤ s.latest := by
    rw [← hs]
    decide +kernel
  obtain ⟨hclient, hcalls, hwait, hclock⟩ := hend
  obtain ⟨g, hg, hfirst, hlast⟩ := Blocking.play_runs (fun r log hr => schedules_legal r log (.inr hr))
    (by simp [readerHolds, Blocking.Move.owns]) hplay (Blocking.runs_idle hclock)
  refine ⟨g, hg, fun i => ?_, fun i => ?_⟩
  · obtain ⟨m, hm, hgi⟩ : ∃ m ≤ 26, g i = g m := by
      obtain hi | ⟨i, rfl⟩ := (le_total i 26).imp_right Nat.exists_eq_add_of_le
      · exact ⟨i, hi, rfl⟩
      · exact ⟨26, le_rfl, (hlast i).trans (hlast 0).symm⟩
    have hstays := readerHolds_stays m (Nat.lt_succ_of_le hm)
    rw [hfirst m hm, ← hgi, Option.map_some, Option.some_inj, Prod.mk.injEq] at hstays
    exact ⟨hstays.1, hstays.2.ge⟩
  · have hat : g (26 + i) = s := hlast i
    exact hat ▸ ⟨hclient, hcalls, hwait⟩

private theorem tests_partlyRead : Tests 2 partlyRead := by
  rw [Tests]
  decide +kernel

/-- The whole run: the deadline passes in the first wait. -/
private theorem expired_run : ∃ f, Blocking.Runs 2 (code [1, 2, 3, 4]) roomMay (some 5) (Tests 2)
      (start (Pool.start (newCbuf 2)) false 0 false) f ∧
    f 26 = partlyRead ∧ f 27 = { partlyRead with wait := some (.leaving .ok) } ∧
    (∀ j ≥ 26, (f j).pool.shared.rdPtr = 1 ∧ 5 ≤ (f j).now) ∧ ∀ i, GivenUp (f (53 + i)) := by
  obtain ⟨g, hg, hlate, hend⟩ := gives_up
  have htest : Blocking.Step 2 (code [1, 2, 3, 4]) roomMay (some 5) (Tests 2) partlyRead
      { partlyRead with wait := some (.leaving .ok) } :=
    .test partlyRead 0 (by decide +kernel) (by decide +kernel) (by decide +kernel) tests_partlyRead
  obtain ⟨f, hf, -, hlast⟩ := Blocking.play_runs (fun r log hr => schedules_legal r log (.inl hr))
    (by simp [deadlinePasses, Blocking.Move.owns, Blocking.Move.peers]) (Option.some_get deadlinePasses_plays).symm
    (hg.cons htest)
  have hat : f 26 = partlyRead := hlast 0
  have hgoes : ∀ i, f (27 + i) = g i := fun i => by
    rw [show 27 + i = 26 + (i + 1) by omega]
    exact hlast (i + 1)
  refine ⟨f, hf, hat, (hgoes 0).trans hg.start, fun j hj => ?_, fun i => ?_⟩
  · obtain rfl | ⟨i, rfl⟩ := (Nat.eq_or_lt_of_le hj).imp Eq.symm Nat.exists_eq_add_of_le
    · rw [hat]
      decide +kernel
    · rw [hgoes]
      exact hlate i
  · rw [show 53 + i = 27 + (26 + i) by omega, hgoes]
    exact hend i

theorem write_b_timeout_expired :
    ∃ f : Nat → Blocking WriteB, f 26 = partlyRead ∧ Tests 2 (f 26) ∧ (f 27).wait = some (.leaving .ok) ∧
      Honours 2 [1, 2, 3, 4] 5 (f 53) (lapsAlong f 53) ∧ (f 53).client = ⟨3, .returned .etimedout⟩ ∧
      ∃ j ≥ 26, Returned (f j) := by
  obtain ⟨f, hf, hat, hnext, hlate, hend⟩ := expired_run
  have hfair : Blocking.Fair 2 (code [1, 2, 3, 4]) roomMay (some 5) (fun _ => True) f := by
    intro i hi
    obtain ⟨t, hstep, hadv⟩ := hi (53 + i) (Nat.le_add_left i 53)
    obtain ⟨hclient, hcalls, hwait⟩ := hend i
    exact (hstep.at_end hcalls hwait (by simp [code, request, hclient]) (by simp [code, waits, hclient]) hadv).elim
  have hroom : ∀ i, RoomFits (2 ^ 1) (f i) := fun i _ =>
    (show 2 ^ 1 < 2 ^ 32 by decide).trans_le (Nat.le_add_left _ _)
  have h := write_b_timeout 1 (by decide) [1, 2, 3, 4] 5 _ .refl rfl false 0 false f hf hroom
  refine ⟨f, hat, hat ▸ tests_partlyRead, by rw [hnext], h.1 53, (hend 0).client, h.2 26 (fun j hj => ?_) hfair⟩
  rw [(hlate j hj).1, (hlate 26 le_rfl).1]
  exact ⟨rfl, (hlate j hj).2⟩

/-- The loop with a full buffer and bytes left: it comes straight back from its wait and finds no room again. -/
structure Spinning {size : Nat} (hs : IsSize size) (data : List UInt8) (deadline : Nat) (before : List Entry)
    (rdPtr : Nat) (s : Blocking WriteB) : Prop where
  going : Going hs data deadline before s
  late : deadline ≤ s.now
  full : used size s.pool.shared = size
  rdPtr : s.pool.shared.rdPtr = rdPtr
  short : s.client.sizeDone < data.length
  uncancelled : s.cancelWaits = false
  unlocked : s.telling = false
  wait : s.wait = none ∨ s.wait = some (.leaving .ok)
  here : ¬Returned s ∧ ∀ n, s.client.pc = .writing n → n = 0

section Spin
variable {size deadline rdPtr : Nat} {hs : IsSize size} {data : List UInt8} {before : List Entry}
  {s t : Blocking WriteB}

/-- A call that ends has found no room and written nothing. -/
private theorem Spinning.ended (h : Spinning hs data deadline before rdPtr s)
    (hgoing : Going hs data deadline before t) (hnow : t.now = s.now) (hcancel : t.cancelWaits = s.cancelWaits)
    (htelling : t.telling = s.telling)
    (hwait : t.wait = s.wait) (hrd : t.pool.shared.rdPtr = s.pool.shared.rdPtr) {origin : Cbuf}
    (hends : CallEnds size data s origin t.pool.shared t.client) : Spinning hs data deadline before rdPtr t := by
  have hfull := h.full
  have hspin : used size t.pool.shared = size ∧ t.client.sizeDone = s.client.sizeDone ∧ ¬Returned t ∧
      ∀ n, t.client.pc = .writing n → n = 0 := by
    unfold Returned
    generalize t.pool.shared = u at hends
    generalize t.client = x at hends
    cases hends with
    | probed free n hpc hused hle hge hn =>
      obtain rfl : free = 0 := by omega
      refine ⟨hused.trans hfull, rfl, by simp, fun n' hn' => ?_⟩
      obtain rfl := WritePc.writing.inj hn'
      simpa using hn
    | wrote n hpc hused =>
      obtain rfl := h.here.2 n hpc
      have hshort := h.short.ne
      simp [hshort, hused, hfull]
    | checked free hpc hused hle hge =>
      obtain rfl : free = 0 := by omega
      simp [hused, hfull]
  obtain ⟨hfull, hdone, hret, hpiece⟩ := hspin
  refine ⟨hgoing, hnow ▸ h.late, hfull, hrd.trans h.rdPtr, hdone ▸ h.short, hcancel ▸ h.uncancelled,
    htelling ▸ h.unlocked, hwait ▸ h.wait, hret, hpiece⟩

theorem Spinning.step (h : Spinning hs data deadline before rdPtr s) (hpos : 0 < size) :
    ∃ t, (Blocking.Step size (code data) roomMay (some deadline) (fun _ => True) s t ∧
      Blocking.Advances (code data) s t) ∧ Spinning hs data deadline before rdPtr t := by
  cases hc : s.pool.calls .producer with
  | some c =>
    obtain ⟨update, next, hrest⟩ := h.going.acts hc
    have hstep : Blocking.Step size (code data) roomMay (some deadline) (fun _ => True) s _ :=
      .act s c update next hc hrest
    refine ⟨_, ⟨hstep, Blocking.act_advances hc⟩, ?_⟩
    have hgoing := h.going.step hstep
    by_cases hret : ∃ a, next s.pool.shared = .ret a
    · obtain ⟨a, ha⟩ := hret
      rw [Blocking.settle_of_ret ha, Pool.settle_of_ret ha] at hgoing ⊢
      obtain ⟨hrd, hends⟩ := call_ends h.going.pool h.going.coherent h.going.written hc hrest ha
      exact h.ended hgoing rfl rfl rfl rfl hrd hends
    · have hret := not_exists.mp hret
      rw [Blocking.settle_of_ne_ret hret, Pool.settle_of_ne_ret hret] at hgoing ⊢
      have hstay := roomed_stay h.going.pool hc hrest hret
      exact ⟨hgoing, h.late, hstay.used.trans h.full, hstay.rd.trans h.rdPtr, h.short, h.uncancelled, h.unlocked, h.wait, h.here⟩
  | none =>
    by_cases hpc : s.client.pc = .waiting
    · have hwaits : waits s.client = some 0 := if_pos hpc
      rcases h.wait with hwait | hwait
      · have hstep : Blocking.Step size (code data) roomMay (some deadline) (fun _ => True) s _ :=
          .test s 0 hwait hwaits h.unlocked trivial
        refine ⟨_, ⟨hstep, .inr (.inl (by simp [hwait]))⟩, ?_⟩
        have hgoing := h.going.step hstep
        have hne : levelIn size s.pool.shared ≠ 0 := by
          rw [levelIn_eq_used hs h.going.pool.inv.ok, h.full]
          exact hpos.ne'
        rw [if_pos hne] at hgoing ⊢
        exact ⟨hgoing, h.late, h.full, h.rdPtr, h.short, h.uncancelled, h.unlocked, .inr rfl, h.here⟩
      · have hstep : Blocking.Step size (code data) roomMay (some deadline) (fun _ => True) s _ := .leave s .ok hwait
        refine ⟨_, ⟨hstep, .inr (.inl (by simp [hwait]))⟩, ?_⟩
        have hgoing := h.going.step hstep
        have hresume : resume s.client (if s.cancelWaits then .ecanceled else .ok) = { s.client with pc := .probing } := by
          rw [h.uncancelled]
          rfl
        dsimp only [code] at hgoing ⊢
        rw [hresume] at hgoing ⊢
        exact ⟨hgoing, h.late, h.full, h.rdPtr, h.short, h.uncancelled, h.unlocked, .inl rfl, by simp [Returned], by simp⟩
    · obtain ⟨r, hr⟩ : ∃ r, request data s.client = some r := by
        unfold request
        split
        · exact ⟨_, rfl⟩
        · exact ⟨_, rfl⟩
        · exact ⟨_, rfl⟩
        · exact (hpc ‹_›).elim
        · exact (h.here.1 ⟨_, ‹_›⟩).elim
      have hlong : ∀ a, perform size r ≠ .ret a := request_long hr
      have hstep : Blocking.Step size (code data) roomMay (some deadline) (fun _ => True) s _ := .call s r hr hc
      refine ⟨_, ⟨hstep, Blocking.call_advances hc hlong⟩, ?_⟩
      have hgoing := h.going.step hstep
      rw [Blocking.settle_of_ne_ret hlong, Pool.settle_of_ne_ret hlong] at hgoing ⊢
      exact ⟨hgoing, h.late, h.full, h.rdPtr, h.short, h.uncancelled, h.unlocked, h.wait, h.here⟩

/-- Once it spins, the loop does so for ever. -/
theorem Spinning.run (h : Spinning hs data deadline before rdPtr s) (hpos : 0 < size) :
    ∃ f, Blocking.Runs size (code data) roomMay (some deadline) (fun _ => True) s f ∧
      (∀ i, Blocking.Advances (code data) (f i) (f (i + 1))) ∧ ∀ i, Spinning hs data deadline before rdPtr (f i) := by
  obtain ⟨f, hstart, hf⟩ := exists_run (fun s hs => hs.step hpos) h
  exact ⟨f, ⟨hstart, fun i => (hf i).1.1⟩, fun i => (hf i).1.2, fun i => (hf i).2⟩

end Spin

def fillTwo : List (Side × Option Request) := (.producer, some (.write [1, 2])) :: List.replicate 8 (.producer, none)

private theorem fillTwo_plays : ((Pool.start (newCbuf 2)).play (perform 2) fillTwo).isSome := by decide +kernel

private theorem fillTwo_legal (i : Side) (r : Request) (h : (i, some r) ∈ fillTwo) (log : List Entry) :
    roomMay i log r := by
  simp [fillTwo] at h
  rw [h.1, h.2]
  exact .inr ⟨[1, 2], rfl⟩

def fullPool : Pool Side Request Cbuf Result :=
  ((Pool.start (newCbuf 2)).play (perform 2) fillTwo).get fillTwo_plays

open Blocking in
def emptied : List Move := Move.owns 13 ++ Move.peers (.read 2) 6 ++ [.test]

private theorem emptied_plays : ((start fullPool false 0 false).play 2 (code [3]) (some 5) emptied).isSome := by
  decide +kernel

/-- One byte is to be written into a full buffer of two. While the reader takes nothing, the loop does not return
although its thread never rests and the deadline has passed; and if the reader takes everything before the level
test, it sleeps with an empty buffer. -/
theorem write_b_timeout_fails :
    Pool.Reachable (perform 2) roomMay (newCbuf 2) fullPool ∧ fullPool.calls .producer = none ∧
      (∃ f, Blocking.Runs 2 (code [3]) roomMay (some 5) (fun _ => True) (start fullPool false 0 false) f ∧
        Blocking.Fair 2 (code [3]) roomMay (some 5) (fun _ => True) f ∧
        ∀ i, (f i).pool.shared.rdPtr = fullPool.shared.rdPtr ∧ (1 ≤ i → 5 ≤ (f i).now) ∧ ¬Returned (f i)) ∧
      ∃ s, Relation.ReflTransGen (Blocking.Step 2 (code [3]) roomMay (some 5) fun _ => True) (start fullPool false 0 false) s ∧
        s.wait = some .asleep ∧ used 2 s.pool.shared = 0 := by
  have hp : Pool.Reachable (perform 2) roomMay (newCbuf 2) fullPool := Pool.get_play_reachable fillTwo_plays fillTwo_legal
  have hidle : fullPool.calls .producer = none := by decide +kernel
  have hfull : used 2 fullPool.shared = 2 := by decide +kernel
  have hs : IsSize 2 := ⟨1, by decide, rfl⟩
  refine ⟨hp, hidle, ?_, ?_⟩
  · have htick : Blocking.Step 2 (code [3]) roomMay (some 5) (fun _ => True) (start fullPool false 0 false) _ := .tick _ 5
    have hgoing : Going hs [3] 5 (fullPool.log .producer) (start fullPool false 0 false) :=
      ⟨(roomed hs []).sound (newCbuf_roomed hs) hp, coherent_start hidle false 0 false _, start_written, hp.unfinished⟩
    have hspin : Spinning hs [3] 5 (fullPool.log .producer) fullPool.shared.rdPtr _ :=
      ⟨hgoing.step htick, le_rfl, hfull, rfl, Nat.zero_lt_one, rfl, rfl, .inl rfl, by simp [start, Returned],
        by simp [start]⟩
    obtain ⟨f, hf, hadv, hspins⟩ := hspin.run Nat.zero_lt_two
    refine ⟨_, hf.cons htick, fun i _ => ⟨i + 1, Nat.le_succ i, hadv i⟩, fun i => ?_⟩
    cases i with
    | zero => exact ⟨rfl, by simp, by simp [start, Returned]⟩
    | succ i => exact ⟨(hspins i).rdPtr, fun _ => (hspins i).late, (hspins i).here.1⟩
  · refine ⟨_, Blocking.play_run (fun r log hr => ?_) (Option.some_get emptied_plays).symm, ?_, ?_⟩
    · simp [emptied, Blocking.Move.owns, Blocking.Move.peers] at hr
      rw [hr]
      trivial
    · decide +kernel
    · decide +kernel

end WriteB
end Glip.CircularBuffer
