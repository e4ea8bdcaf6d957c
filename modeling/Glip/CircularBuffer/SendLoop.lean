import Glip.CircularBuffer.FillLevelRace
import Glip.Foundation.PoolThread

/-! A thread that sends what others write into a buffer: it looks at the bytes, hands them to its device, and discards as
many as the device has taken. -/
namespace Glip.CircularBuffer
open Foundation Prog

/-- Where such a thread stands: at its wait, at the peek, at the transfer of the bytes that it has a pointer to, at the
discard, at its end, or where an assertion has failed. -/
inductive SendPc where
  | waiting
  | peeking (n : Nat)
  | transferring (data : List UInt8)
  | discarding (n : Nat)
  | stopped
  | aborted
  deriving DecidableEq

structure Sender where
  pc : SendPc
  sent : List UInt8
  deriving DecidableEq

inductive SendEvent where
  | took (n : Nat)
  | nothing
  | ends
  deriving DecidableEq

/-- How long a transfer is at a fill level, if there is one, and whether the result of `cbuf_discard` is looked at. -/
structure SendLoop where
  transferLen : Nat → Option Nat
  discardChecked : Bool
  le : ∀ fill n, transferLen fill = some n → n ≤ fill

namespace SendLoop
variable (L : SendLoop)

def calls (x : Sender) (r : Request) : Bool :=
  match x.pc, r with
  | .waiting, .fillLevel => true
  | .peeking n, .peek _ n' m => decide (n' = n ∧ m = n)
  | .discarding n, .discard n' => decide (n' = n)
  | _, _ => false

def after (x : Sender) (a : Result) : Sender :=
  match x.pc, a with
  | .waiting, .level fill => { x with pc := (L.transferLen fill).elim .waiting .peeking }
  | .peeking _, .bytes .ok data => { x with pc := .transferring data }
  | .peeking _, _ => { x with pc := .aborted }
  | .discarding _, .code .ok => { x with pc := .waiting }
  | .discarding _, _ => { x with pc := if L.discardChecked then .aborted else .waiting }
  | _, _ => x

def event (x : Sender) (e : SendEvent) : Option Sender :=
  match x.pc, e with
  | .transferring data, .took n => if n ≤ data.length then some ⟨.discarding n, x.sent ++ data.take n⟩ else none
  | .transferring _, .nothing => some { x with pc := .waiting }
  | .waiting, .ends | .transferring _, .ends | .discarding _, .ends => some { x with pc := .stopped }
  | _, _ => none

def code : ThreadCode Request Result Sender SendEvent := ⟨calls, L.after, event⟩

abbrev Step (size : Nat) (oom : Prop) : Driven Side Request Cbuf Result Sender → Driven Side Request Cbuf Result Sender → Prop :=
  Driven.Step (perform size) (may oom) L.code .consumer

def start (s : Cbuf) : Driven Side Request Cbuf Result Sender := .start s ⟨.waiting, []⟩

end SendLoop

def refusedBy : Request → Result → Nat
  | .discard _, .code .ok => 0
  | .discard n, _ => n
  | _, _ => 0

def refused (log : List Entry) : Nat := (log.map fun d => refusedBy d.request d.result).sum

theorem refused_concat (log : List Entry) (d : Entry) :
    refused (log ++ [d]) = refused log + refusedBy d.request d.result := by
  simp [refused]

def SendPc.pending : SendPc → Option Nat
  | waiting | peeking _ | transferring _ => some 0
  | discarding n => some n
  | stopped | aborted => none

def SendPc.Known (L : SendLoop) (v : Seen) : SendPc → Prop
  | waiting | stopped | aborted => True
  | peeking n => n ≤ v.known ∧ ∃ fill, L.transferLen fill = some n
  | transferring data => v.peeked = data ∧ data.length ≤ v.known ∧ ∃ fill, L.transferLen fill = some data.length
  | discarding n => n ≤ v.peeked.length ∧ n ≤ v.known

def SendPc.due (v : Seen) : SendPc → List UInt8
  | discarding n => v.peeked.take n
  | _ => []

/-- The last call failed, because the buffer filled up between its loads or for want of memory. -/
def Failed (size : Nat) (log : List Entry) : Prop :=
  ∃ pre d, log = pre ++ [d] ∧ (d.result.rc = some .einval ∧ Race size d.seen ∨ d.result.rc = some .enomem)

/-- What the thread has sent, by its calls so far. -/
structure Sends (size : Nat) (L : SendLoop) (x : Sender) (log : List Entry) : Prop where
  covered : (seenBy log).covered = true
  known : x.pc.Known L (seenBy log)
  count : ∀ n, x.pc.pending = some n → x.sent.length = (seenBy log).returned.length + refused log + n
  kept : ((seenBy log).returned ++ x.pc.due (seenBy log)).Sublist x.sent
  exact : refused log = 0 ∨ L.discardChecked = true → ∃ n ≤ (seenBy log).peeked.length,
    x.sent = (seenBy log).returned ++ (seenBy log).peeked.take n ∧ ∀ m, x.pc.pending = some m → n = m
  torn : ∀ d ∈ log, ∀ n, d.request = .discard n → d.result ≠ .code .ok → Race size d.seen
  aborted : x.pc = .aborted → Failed size log

section
variable {size : Nat} {oom : Prop} {hs : IsSize size} {hsmall : oom ∨ size ≤ 2 ^ 29} {L : SendLoop} {x x' : Sender}
  {log : List Entry} {d : Entry} {sent : List UInt8}

/-- How a call that has ended went. -/
private theorem past_ends (hpast : (sharing hs oom hsmall).Past .consumer log d) :
    (∃ s₀ s, Consumed size oom s₀ s d.request d.result) ∧
      ∀ n, d.request.wants = some n → n ≤ (seenBy log).known → (d.result.rc = some .einval ↔ 0 < n ∧ Race size d.seen) := by
  obtain ⟨⟨hmay, logs, rfl, hinv⟩, s', htrace⟩ := hpast
  have hinv : Shared size oom d.origin logs := hinv
  obtain ⟨s₀, hend⟩ := ((sharing hs oom hsmall).safe .consumer d.request d.origin logs hinv hmay).of_trace htrace
  exact ⟨⟨s₀, s', hend⟩, fun n hn hle => trace_wants hs hinv.ok hn (hle.trans hinv.known) htrace⟩

/-- What the invariant says where nothing is pending. -/
private theorem Sends.rests (h : Sends size L x log) (hp : x.pc.pending = some 0)
    (hexact : refused log = 0 ∨ L.discardChecked = true) : x.sent = (seenBy log).returned := by
  obtain ⟨n, -, hsent, hn⟩ := h.exact hexact
  rw [hn 0 hp, List.take_zero, List.append_nil] at hsent
  exact hsent

/-- The thread goes on from where nothing is pending with a call that takes no byte. -/
private theorem Sends.looks (h : Sends size L x log) (hp : x.pc.pending = some 0) {pc : SendPc}
    (hpc : pc.pending = some 0 ∨ pc = .aborted ∧ Failed size (log ++ [d]))
    (hknown : pc.Known L (seenBy (log ++ [d]))) (hret : (seenBy (log ++ [d])).returned = (seenBy log).returned)
    (hcov : (seenBy (log ++ [d])).covered = (seenBy log).covered) (hreq : ∀ n, d.request ≠ .discard n) :
    Sends size L { x with pc := pc } (log ++ [d]) := by
  have hrefused : refused (log ++ [d]) = refused log := by
    rw [refused_concat]
    cases hr : d.request with
    | discard n => exact absurd hr (hreq n)
    | _ => rfl
  constructor
  case covered => exact hcov.trans h.covered
  case known => exact hknown
  case count =>
    intro n hn
    obtain hpc | ⟨rfl, -⟩ := hpc
    · obtain rfl : 0 = n := Option.some.inj (hpc.symm.trans hn)
      rw [hret, hrefused]
      exact h.count 0 hp
    · cases hn
  case kept =>
    have hdue : pc.due (seenBy (log ++ [d])) = [] := by
      obtain hpc | ⟨rfl, -⟩ := hpc
      · cases pc with
        | discarding n =>
          obtain rfl : n = 0 := Option.some.inj hpc
          rfl
        | _ => rfl
      · rfl
    rw [hdue, List.append_nil, hret]
    exact (List.sublist_append_left _ _).trans h.kept
  case exact =>
    intro hexact
    rw [hrefused] at hexact
    refine ⟨0, Nat.zero_le _, ?_, fun m hm => ?_⟩
    · rw [hret, List.take_zero, List.append_nil]
      exact h.rests hp hexact
    · obtain hpc | ⟨rfl, -⟩ := hpc
      · exact Option.some.inj (hpc.symm.trans hm)
      · cases hm
  case torn =>
    intro e he n hn
    rcases List.mem_append.mp he with he | he
    · exact h.torn e he n hn
    · obtain rfl := List.mem_singleton.mp he
      exact absurd hn (hreq n)
  case aborted =>
    intro hab
    obtain hpc | ⟨-, hfailed⟩ := hpc
    · rw [show pc = .aborted from hab] at hpc
      cases hpc
    · exact hfailed

/-- The fill level that it is told is one that it knows of. -/
private theorem Sends.level (h : Sends size L ⟨.waiting, sent⟩ log) (hreq : d.request = .fillLevel)
    (hpast : (sharing hs oom hsmall).Past .consumer log d) :
    Sends size L (L.after ⟨.waiting, sent⟩ d.result) (log ++ [d]) := by
  obtain ⟨⟨s₀, s, hend⟩, -⟩ := past_ends hpast
  rw [hreq] at hend
  cases hres : d.result with
  | level fill =>
    have hseen : seenBy (log ++ [d]) = { seenBy log with known := max (seenBy log).known fill } := by
      rw [seenBy_concat, hreq, hres]
      rfl
    refine h.looks rfl ?_ ?_ (by rw [hseen]) (by rw [hseen]) (by simp [hreq])
    · cases L.transferLen fill with
      | none => exact .inl rfl
      | some n => exact .inl rfl
    · cases hlen : L.transferLen fill with
      | none => trivial
      | some n =>
        rw [hseen]
        exact ⟨(L.le fill n hlen).trans (le_max_right _ _), fill, hlen⟩
  | done | flag | code | bytes =>
    rw [hres] at hend
    exact hend.elim

private theorem Sends.peek {n : Nat} {alloc : Alloc} (h : Sends size L ⟨.peeking n, sent⟩ log) (hle : size ≤ 2 ^ 29)
    (hreq : d.request = .peek alloc n n) (hpast : (sharing hs oom hsmall).Past .consumer log d) :
    Sends size L (L.after ⟨.peeking n, sent⟩ d.result) (log ++ [d]) := by
  obtain ⟨⟨s₀, s, hend⟩, hfails⟩ := past_ends hpast
  obtain ⟨hn, hlen⟩ : n ≤ (seenBy log).known ∧ ∃ fill, L.transferLen fill = some n := h.known
  have hfails := hfails n (by rw [hreq]; rfl) hn
  rw [hreq] at hend
  cases hres : d.result with
  | bytes rc bs =>
    rw [hres] at hend hfails
    obtain ⟨hout, hbs⟩ := hend
    cases rc with
    | ok =>
      have hseen : seenBy (log ++ [d]) = { seenBy log with peeked := bs } := by
        rw [seenBy_concat, hreq, hres]
        rfl
      refine h.looks rfl (.inl rfl) ?_ (by rw [hseen]) (by rw [hseen]) (by simp [hreq])
      obtain ⟨v, hv, hle⟩ := hout.level
      have hused : v ≤ used size s₀ := hv
      have hall : bs.length = n := by
        rw [hbs fun _ => .inr (by omega), yielded, if_pos rfl, List.length_take, contents_length]
        omega
      rw [hseen]
      exact ⟨rfl, hall.le.trans hn, by rwa [hall]⟩
    | einval =>
      have hseen : seenBy (log ++ [d]) = seenBy log := by
        rw [seenBy_concat, hreq, hres]
        rfl
      exact h.looks rfl (.inr ⟨rfl, log, d, rfl, .inl ⟨by rw [hres]; rfl, (hfails.mp rfl).2⟩⟩) trivial (by rw [hseen]) (by rw [hseen])
        (by simp [hreq])
    | enomem =>
      have hseen : seenBy (log ++ [d]) = seenBy log := by
        rw [seenBy_concat, hreq, hres]
        rfl
      exact h.looks rfl (.inr ⟨rfl, log, d, rfl, .inr (by rw [hres]; rfl)⟩) trivial (by rw [hseen]) (by rw [hseen])
        (by simp [hreq])
  | done | flag | code | level =>
    rw [hres] at hend
    exact hend.elim

/-- A discard of bytes that it has sent: they are gone, or the call was torn. -/
private theorem Sends.discard {n : Nat} (h : Sends size L ⟨.discarding n, sent⟩ log) (hreq : d.request = .discard n)
    (hpast : (sharing hs oom hsmall).Past .consumer log d) :
    Sends size L (L.after ⟨.discarding n, sent⟩ d.result) (log ++ [d]) := by
  obtain ⟨⟨s₀, s, hend⟩, hfails⟩ := past_ends hpast
  obtain ⟨hpeeked, hn⟩ : n ≤ (seenBy log).peeked.length ∧ n ≤ (seenBy log).known := h.known
  have hfails := hfails n (by rw [hreq]; rfl) hn
  have hcount : sent.length = (seenBy log).returned.length + refused log + n := h.count n rfl
  have htorn (hnew : d.result ≠ .code .ok → Race size d.seen) :
      ∀ e ∈ log ++ [d], ∀ m, e.request = .discard m → e.result ≠ .code .ok → Race size e.seen := by
    intro e he m hm hne
    rcases List.mem_append.mp he with he | he
    · exact h.torn e he m hm hne
    · obtain rfl := List.mem_singleton.mp he
      exact hnew hne
  rw [hreq] at hend
  cases hres : d.result with
  | code rc =>
    rw [hres] at hend hfails
    cases rc with
    | ok =>
      have hseen : seenBy (log ++ [d]) = ⟨(seenBy log).returned ++ (seenBy log).peeked.take n,
          (seenBy log).peeked.drop n, (seenBy log).known - n, true⟩ := by
        rw [seenBy_concat, hreq, hres]
        simp [Seen.after, h.covered, hpeeked]
      have hrefused : refused (log ++ [d]) = refused log := by
        rw [refused_concat, hreq, hres]
        rfl
      constructor
      case covered => rw [hseen]
      case known => trivial
      case count =>
        intro m hm
        obtain rfl : 0 = m := Option.some.inj hm
        rw [hseen, hrefused]
        change sent.length = _
        rw [hcount, List.length_append, List.length_take, Nat.min_eq_left hpeeked]
        omega
      case kept =>
        rw [hseen]
        exact (List.append_nil _).symm ▸ h.kept
      case exact =>
        intro hexact
        rw [hrefused] at hexact
        obtain ⟨m, -, hsent, hm⟩ := h.exact hexact
        obtain rfl : m = n := hm n rfl
        refine ⟨0, Nat.zero_le _, ?_, fun k hk => Option.some.inj hk⟩
        rw [hseen, List.take_zero, List.append_nil]
        exact hsent
      case torn => exact htorn fun hne => absurd hres hne
      case aborted => exact fun hab => by cases hab
    | einval =>
      have hseen : seenBy (log ++ [d]) = seenBy log := by
        rw [seenBy_concat, hreq, hres]
        rfl
      have hrefused : refused (log ++ [d]) = refused log + n := by
        rw [refused_concat, hreq, hres]
        rfl
      have hrace : 0 < n ∧ Race size d.seen := hfails.mp rfl
      have hafter : L.after ⟨.discarding n, sent⟩ (.code .einval) =
          ⟨if L.discardChecked then .aborted else .waiting, sent⟩ := rfl
      rw [hafter]
      constructor
      case covered =>
        rw [hseen]
        exact h.covered
      case known => cases L.discardChecked <;> trivial
      case count =>
        intro m hm
        cases hchecked : L.discardChecked with
        | true =>
          rw [hchecked] at hm
          cases hm
        | false =>
          rw [hchecked] at hm
          obtain rfl : 0 = m := Option.some.inj hm
          rw [hseen, hrefused]
          dsimp only
          omega
      case kept =>
        have hdue : (if L.discardChecked then SendPc.aborted else .waiting).due (seenBy log) = [] := by
          cases L.discardChecked <;> rfl
        rw [hseen]
        dsimp only
        rw [hdue, List.append_nil]
        exact (List.sublist_append_left _ _).trans h.kept
      case exact =>
        rintro (hnone | hchecked)
        · omega
        · rw [hseen, hchecked]
          obtain ⟨m, hle, hsent, -⟩ := h.exact (.inr hchecked)
          exact ⟨m, hle, hsent, fun k hk => by cases hk⟩
      case torn => exact htorn fun _ => hrace.2
      case aborted => exact fun _ => ⟨log, d, rfl, .inl ⟨by rw [hres]; rfl, hrace.2⟩⟩
    | enomem => exact hend.level.elim
  | done | flag | bytes | level =>
    rw [hres] at hend
    exact hend.elim

private theorem Sends.event {e : SendEvent} (h : Sends size L x log) (he : SendLoop.event x e = some x') :
    Sends size L x' log := by
  obtain ⟨pc, sent⟩ := x
  -- the thread goes back to its wait, or ends
  have hleaves {pc' : SendPc} (hpc : pc'.pending = none ∧ pc' ≠ .aborted ∨ pc'.pending = some 0 ∧ pc.pending = some 0)
      (hknown : pc'.Known L (seenBy log)) (hne : pc' ≠ .aborted) : Sends size L ⟨pc', sent⟩ log := by
    have hdue : pc'.due (seenBy log) = [] := by
      cases pc' with
      | discarding n =>
        obtain ⟨hnone, -⟩ | ⟨hsome, -⟩ := hpc
        · cases hnone
        · obtain rfl : n = 0 := Option.some.inj hsome
          rfl
      | _ => rfl
    refine ⟨h.covered, hknown, fun n hn => ?_, ?_, fun hexact => ?_, h.torn, fun hab => absurd hab hne⟩
    · obtain ⟨hnone, -⟩ | ⟨hsome, hzero⟩ := hpc
      · rw [hnone] at hn
        cases hn
      · exact h.count n (hzero.trans (hsome.symm.trans hn))
    · rw [hdue, List.append_nil]
      exact (List.sublist_append_left _ _).trans h.kept
    · obtain ⟨m, hle, hsent, hm⟩ := h.exact hexact
      refine ⟨m, hle, hsent, fun k hk => ?_⟩
      obtain ⟨hnone, -⟩ | ⟨hsome, hzero⟩ := hpc
      · rw [hnone] at hk
        cases hk
      · exact hm k (hzero.trans (hsome.symm.trans hk))
  cases pc with
  | waiting =>
    cases e with
    | ends =>
      cases he
      exact hleaves (.inl ⟨rfl, by decide⟩) trivial (by decide)
    | took | nothing => cases he
  | transferring data =>
    cases e with
    | took n =>
      obtain ⟨hn, he⟩ := Option.ite_none_right_eq_some.mp he
      cases he
      obtain ⟨hpeeked, hlevel, -⟩ := h.known
      have hcount : sent.length = (seenBy log).returned.length + refused log + 0 := h.count 0 rfl
      refine ⟨h.covered, ⟨hpeeked ▸ hn, hn.trans hlevel⟩, fun m hm => ?_, ?_, fun hexact => ?_, h.torn, nofun⟩
      · obtain rfl : n = m := Option.some.inj hm
        dsimp only
        rw [List.length_append, List.length_take, Nat.min_eq_left hn]
        omega
      · have hkept : ((seenBy log).returned ++ []).Sublist sent := h.kept
        rw [List.append_nil] at hkept
        exact hkept.append (hpeeked ▸ List.Sublist.refl _)
      · exact ⟨n, hpeeked ▸ hn, by rw [h.rests rfl hexact, hpeeked], fun m hm => Option.some.inj hm⟩
    | nothing =>
      cases he
      exact hleaves (.inr ⟨rfl, rfl⟩) trivial (by decide)
    | ends =>
      cases he
      exact hleaves (.inl ⟨rfl, by decide⟩) trivial (by decide)
  | discarding n =>
    cases e with
    | ends =>
      cases he
      exact hleaves (.inl ⟨rfl, by decide⟩) trivial (by decide)
    | took | nothing => cases he
  | peeking | stopped | aborted => cases he

private theorem sends_preserved (hle : size ≤ 2 ^ 29) :
    Driven.Preserved (sharing hs oom hsmall) L.code .consumer (Sends size L) where
  call x log d h hcalls hpast := by
    obtain ⟨pc, sent⟩ := x
    cases pc with
    | waiting =>
      cases hreq : d.request with
      | fillLevel => exact h.level hreq hpast
      | _ =>
        rw [hreq] at hcalls
        cases hcalls
    | peeking n =>
      cases hreq : d.request with
      | peek alloc n' m =>
        rw [hreq] at hcalls
        obtain ⟨rfl, rfl⟩ : n' = n ∧ m = n := of_decide_eq_true hcalls
        exact h.peek hle hreq hpast
      | _ =>
        rw [hreq] at hcalls
        cases hcalls
    | discarding n =>
      cases hreq : d.request with
      | discard n' =>
        rw [hreq] at hcalls
        obtain rfl : n' = n := of_decide_eq_true hcalls
        exact h.discard hreq hpast
      | _ =>
        rw [hreq] at hcalls
        cases hcalls
    | transferring | stopped | aborted => cases hcalls
  event x log e x' h he := h.event he

/-- The thread on a buffer that begins empty. -/
theorem sends_run {c₀ : Cbuf} {s : Driven Side Request Cbuf Result Sender} (hs : IsSize size) (hsmall : size ≤ 2 ^ 29)
    (hok : Ok size oom c₀) (hrd : c₀.rdPtr = 0) (hempty : contents size c₀ = [])
    (hrun : Relation.ReflTransGen (L.Step size oom) (SendLoop.start c₀) s) :
    (sharing hs oom (.inr hsmall)).Holds s.pool ∧ Sends size L s.client (s.pool.log .consumer) := by
  have hshared : Shared size oom c₀ fun _ => [] := by
    refine ⟨hok, congrArg (· % size) hrd, Nat.zero_le _, [], ?_, fun _ => ⟨fun _ => rfl, List.nil_prefix⟩⟩
    rw [hempty]
    rfl
  have hsends : Sends size L ⟨.waiting, []⟩ [] :=
    ⟨rfl, trivial, fun n hn => by cases hn; rfl, .refl [], fun _ => ⟨0, Nat.zero_le _, rfl, fun n hn => Option.some.inj hn⟩,
      nofun, nofun⟩
  obtain ⟨hholds, -, h⟩ := (sends_preserved hsmall).run (K := sharing hs oom (.inr hsmall)) hshared hsends hrun
  exact ⟨hholds, h⟩

variable {s : Cbuf} {logs : Side → List Entry}

private theorem Sends.written (h : Sends size L x (logs .consumer)) (hsmall : size ≤ 2 ^ 29) (hinv : Shared size oom s logs) :
    written (logs .producer) = (seenBy (logs .consumer)).returned ++ contents size s ∧
      (seenBy (logs .consumer)).peeked <+: contents size s := by
  obtain ⟨taken, hwritten, hknows⟩ := hinv.queue (allNear_of_le hsmall _)
  rw [hwritten, hknows.returned h.covered]
  exact ⟨rfl, hknows.peeked⟩

/-- Where no discard was refused, or where a refused discard ends the thread, every byte is sent once and in order. -/
theorem Sends.in_order (h : Sends size L x (logs .consumer)) (hsmall : size ≤ 2 ^ 29) (hinv : Shared size oom s logs)
    (hexact : refused (logs .consumer) = 0 ∨ L.discardChecked = true) :
    x.sent <+: CircularBuffer.written (logs .producer) ∧
      (x.pc.pending = some 0 → CircularBuffer.written (logs .producer) = x.sent ++ contents size s) := by
  obtain ⟨hwritten, hpeeked⟩ := h.written hsmall hinv
  obtain ⟨n, -, hsent, -⟩ := h.exact hexact
  refine ⟨?_, fun hp => ?_⟩
  · rw [hwritten, hsent]
    exact List.prefix_append_right_inj _ |>.mpr ((List.take_prefix _ _).trans hpeeked)
  · rw [hwritten, h.rests hp hexact]

/-- The bytes sent are those discarded, those of the refused discards and those of the present pass. -/
theorem Sends.total (h : Sends size L x (logs .consumer)) (hsmall : size ≤ 2 ^ 29) (hinv : Shared size oom s logs) {n : Nat}
    (hp : x.pc.pending = some n) :
    x.sent.length + used size s = (CircularBuffer.written (logs .producer)).length + refused (logs .consumer) + n := by
  obtain ⟨hwritten, -⟩ := h.written hsmall hinv
  rw [hwritten, h.count n hp, List.length_append, contents_length]
  omega

/-- No byte leaves the buffer unsent. -/
theorem Sends.complete (h : Sends size L x (logs .consumer)) (hsmall : size ≤ 2 ^ 29) (hinv : Shared size oom s logs) :
    ∃ gone, CircularBuffer.written (logs .producer) = gone ++ contents size s ∧ gone.Sublist x.sent :=
  ⟨_, (h.written hsmall hinv).1, (List.sublist_append_left _ _).trans h.kept⟩

/-- What the device is given is the oldest bytes of the buffer, as many as the loop sends at some fill level. -/
theorem Sends.transfer (h : Sends size L x (logs .consumer)) (hsmall : size ≤ 2 ^ 29) (hinv : Shared size oom s logs) {data : List UInt8}
    (hpc : x.pc = .transferring data) :
    data <+: contents size s ∧ ∃ fill, L.transferLen fill = some data.length := by
  have hknown := h.known
  rw [hpc] at hknown
  obtain ⟨hpeeked, -, hlen⟩ := hknown
  exact ⟨hpeeked ▸ (h.written hsmall hinv).2, hlen⟩

end

open Driven in
/-- A byte that is written while a discard looks at the level fills the buffer, and the byte to discard is sent again. -/
example :
    let L : SendLoop := ⟨some, false, fun _ _ h => (Option.some.inj h).ge⟩
    let write (b : UInt8) : List (Move Side Request SendEvent) :=
      .other .producer (some (.write [b])) :: List.replicate 8 (.other .producer none)
    let own (n : Nat) : List (Move Side Request SendEvent) := List.replicate n .own
    let peek (n : Nat) : Request := .peek (some fun _ => 0) n n
    let moves := write 1 ++ [.call .fillLevel] ++ own 4 ++ [.call (peek 1)] ++ own 7 ++
      [.event (.took 1), .call (.discard 1)] ++ own 2 ++ write 2 ++ own 2 ++
      [.call .fillLevel] ++ own 2 ++ [.call (peek 2)] ++ own 5 ++ [.event (.took 1)]
    ((SendLoop.start (newCbuf 2)).play (perform 2) L.code .consumer moves).map (·.client) = some ⟨.discarding 1, [1, 1]⟩ := by
  decide +kernel

end Glip.CircularBuffer
