import Glip.CircularBuffer.ReaderLevel
import Glip.CircularBuffer.WriterRoom
import Glip.Foundation.PoolThread

/-! A thread that receives what others read out of a buffer: it reserves the room that there is, lets its device fill it,
and commits as many bytes as the device has stored. -/
namespace Glip.CircularBuffer
open Foundation Prog

/-- Where such a thread stands: at its wait, at the transfer, at the reservation with its commit, at its end, where an
assertion has failed, or where it uses a pointer that it was not given. -/
inductive ReceivePc where
  | waiting
  | receiving (n : Nat)
  | storing (n : Nat) (data : List UInt8)
  | stopped
  | aborted
  | stray
  deriving DecidableEq

structure Receiver where
  pc : ReceivePc
  received : List UInt8
  deriving DecidableEq

inductive ReceiveEvent where
  | got (data : List UInt8)
  | ends
  deriving DecidableEq

/-- How much room a transfer takes at a free level, if there is one, and whether the result of `cbuf_reserve` is looked at. -/
structure ReceiveLoop where
  bufSize : Nat → Option Nat
  reserveChecked : Bool
  le : ∀ free n, bufSize free = some n → n ≤ free

namespace ReceiveLoop
variable (L : ReceiveLoop)

/-- The reservation and the commit are one call, made with the bytes that the device stores in between. -/
def calls (x : Receiver) (r : Request) : Bool :=
  match x.pc, r with
  | .waiting, .freeLevel => true
  | .storing n data, .reserveCommit _ n' data' m => decide (n' = n ∧ data' = data ∧ m = data.length)
  | _, _ => false

def after (x : Receiver) (a : Result) : Receiver :=
  match x.pc, a with
  | .waiting, .level free => { x with pc := (L.bufSize free).elim .waiting .receiving }
  | .storing _ _, .code .ok => { x with pc := .waiting }
  | .storing _ _, _ => { x with pc := if L.reserveChecked then .aborted else .stray }
  | _, _ => x

def event (x : Receiver) (e : ReceiveEvent) : Option Receiver :=
  match x.pc, e with
  | .receiving n, .got data => if data.length ≤ n then some ⟨.storing n data, x.received ++ data⟩ else none
  | .waiting, .ends | .receiving _, .ends => some { x with pc := .stopped }
  | _, _ => none

def code : ThreadCode Request Result Receiver ReceiveEvent := ⟨calls, L.after, event⟩

def may (oom : Prop) : Side → List Entry → Request → Prop
  | .producer, log, r => CircularBuffer.may oom .producer log r
  | .consumer, _, r => r = .fillLevel ∨ ∃ n, r = .read n

abbrev Step (size : Nat) (oom : Prop) :
    Driven Side Request Cbuf Result Receiver → Driven Side Request Cbuf Result Receiver → Prop :=
  Driven.Step (perform size) (may oom) L.code .producer

def start (s : Cbuf) : Driven Side Request Cbuf Result Receiver := .start s ⟨.waiting, []⟩

end ReceiveLoop

def Reads (log : List Entry) : Prop := ∀ d ∈ log, d.request = .fillLevel ∨ ∃ n, d.request = .read n

theorem Reads.seenBy {log : List Entry} (h : Reads log) :
    (seenBy log).covered = true ∧ (seenBy log).returned = readBy log := by
  induction log using List.reverseRecOn with
  | nil => exact ⟨rfl, rfl⟩
  | append_singleton log d ih =>
    obtain ⟨hcovered, hreturned⟩ := ih fun e he => h e (List.mem_append_left _ he)
    rw [seenBy_concat, readBy_concat, ← hreturned]
    rcases h d (List.mem_append_right _ (.head _)) with hreq | ⟨n, hreq⟩
    · rw [hreq]
      cases d.result with
      | done | flag | level | code | bytes => exact ⟨hcovered, (List.append_nil _).symm⟩
    · rw [hreq]
      cases d.result with
      | bytes rc bs =>
        cases rc with
        | ok => exact ⟨hcovered, rfl⟩
        | einval | enomem => exact ⟨hcovered, (List.append_nil _).symm⟩
      | done | flag | level | code => exact ⟨hcovered, (List.append_nil _).symm⟩

section Contract
variable {size : Nat} {oom : Prop} {s s' t : Cbuf} {log : Side → List Entry} {ts : List Cbuf} {a : Result}

def Stocked (size : Nat) (s : Cbuf) (log : Side → List Entry) : Prop :=
  RoomKnown size s (log .producer) ∧ Reads (log .consumer)

def StockEnds (size : Nat) : Side → Request → Result → Cbuf → Cbuf → Prop
  | .producer, r, a, _, s => ∀ free, r = .freeLevel → a = .level free → used size s + free ≤ size
  | .consumer, r, _, _, _ => r = .fillLevel ∨ ∃ n, r = .read n

private theorem RoomKnown.mono (h : RoomKnown size s (log .producer)) (hle : used size t ≤ used size s) :
    RoomKnown size t (log .producer) := by
  intro pre d free hd hreq hres
  have hroom := h pre d free hd hreq hres
  omega

private theorem stock_safe (hs : IsSize size) (hsmall : size ≤ 2 ^ 29) (i : Side) (r : Request)
    (hinv : Shared size oom s log) (hr : ReceiveLoop.may oom i (log i) r) :
    (perform size r).Safe (SideRely size oom i) (SideStep size oom i) oom (StockEnds size i r) s s := by
  cases i with
  | producer =>
    have hsafe := (sharing hs oom (.inr hsmall)).safe .producer r s log hinv hr
    by_cases hreq : r = .freeLevel
    · subst hreq
      refine (safe_bind _ _ _ _ _).mpr ((freeLevel_safe (V := .shared size oom) hs hinv.ok).mono ?_)
      rintro free s₀ s ⟨-, v, hv, hle, rfl⟩
      have hv : used size s ≤ v := hv
      intro free _ hfree
      cases hfree
      omega
    · exact hsafe.mono fun _ _ _ _ _ h => absurd h hreq
  | consumer =>
    have hmay : CircularBuffer.may oom .consumer (log .consumer) r := by
      obtain rfl | ⟨n, rfl⟩ := hr
      · exact ⟨trivial, trivial⟩
      · exact ⟨trivial, trivial⟩
    exact ((sharing hs oom (.inr hsmall)).safe .consumer r s log hinv hmay).mono fun _ _ _ _ => hr

def stocked (hs : IsSize size) (hsmall : size ≤ 2 ^ 29) (oom : Prop) : Contract (perform size) (ReceiveLoop.may oom) :=
  (sharing hs oom (.inr hsmall)).strengthen
    (fun
      | .producer => fun _ _ h => h
      | .consumer => fun _ _ h => by
          obtain rfl | ⟨n, rfl⟩ := h
          · exact ⟨trivial, trivial⟩
          · exact ⟨trivial, trivial⟩)
    (Stocked size) (StockEnds size)
    (fun
      | .producer => fun s t log h _ hJ => ⟨hJ.1.mono (WriterStep.used h).le, hJ.2⟩
      | .consumer => fun s t log h _ hJ => ⟨hJ.1.mono (ReaderStep.toReaderTakes h).used.le, hJ.2⟩)
    (fun
      | .producer => fun s t log d _ hends _ hJ => by
          refine ⟨fun pre e free he hreq hres => ?_, ?_⟩
          · rw [Function.update_self] at he
            obtain ⟨-, rfl⟩ := List.append_singleton_inj.mp he
            exact hends free hreq hres
          · rw [Function.update_of_ne (by decide)]
            exact hJ.2
      | .consumer => fun s t log d h hends hinv hJ => by
          have hrely : WriterRely size oom s t :=
            (sharing hs oom (.inr hsmall)).fin_rely .consumer .producer d.request d.result s t (by decide) h
          refine ⟨?_, ?_⟩
          · rw [Function.update_of_ne (by decide)]
            exact hJ.1.mono (hrely.ok hinv.ok).2
          · rw [Function.update_self]
            intro e he
            rcases List.mem_append.mp he with he | he
            · exact hJ.2 e he
            · obtain rfl := List.mem_singleton.mp he
              exact hends)
    (fun i r _ _ hinv hr => stock_safe hs hsmall i r hinv hr)

/-- A reservation of room that was there at its start is not refused. -/
theorem trace_reserve (hs : IsSize size) (hsmall : size ≤ 2 ^ 29) (h : Ok size oom s) {alloc : Alloc} {n : Nat}
    {data : List UInt8} (halloc : alloc = none → oom) (hdata : data.length ≤ n) (hroom : used size s + n ≤ size)
    (ht : Trace (WriterRely size oom) ts (perform size (.reserveCommit alloc n data data.length)) s (.ret a) s') :
    a = .code .ok ∨ a = .code .enomem ∧ oom := by
  obtain ⟨ts₁, ts₂, rc, u, rfl, hload, hend⟩ := trace_bind ht
  obtain ⟨-, rfl, rfl⟩ := trace_pure hend
  obtain ⟨u', ho, hb⟩ := ends_below (reserveCommit_safe (V := .below size oom (used size s)) hs (.inr hsmall) halloc hdata
    le_rfl h) h le_rfl hload
  cases rc with
  | ok => exact .inl rfl
  | enomem => exact .inr ⟨rfl, halloc ho.level⟩
  | einval =>
    obtain ⟨v, ⟨hv, hb'⟩, hlt⟩ := ho.level
    have hlen := congrArg List.length ho.adds.contents
    simp at hlen
    omega

end Contract

def ReceivePc.pending : ReceivePc → Option (List UInt8)
  | waiting | receiving _ => some []
  | storing _ data => some data
  | stopped | aborted | stray => none

def ReceivePc.Fits (log : List Entry) : ReceivePc → Prop
  | receiving n => ∃ pre d free, log = pre ++ [d] ∧ d.request = .freeLevel ∧ d.result = .level free ∧ n ≤ free
  | storing n data => data.length ≤ n ∧
      ∃ pre d free, log = pre ++ [d] ∧ d.request = .freeLevel ∧ d.result = .level free ∧ n ≤ free
  | _ => True

/-- What the thread has received, by its calls so far; only a want of memory stops it in the middle. -/
structure Receives (oom : Prop) (x : Receiver) (log : List Entry) : Prop where
  received : ∀ bs, x.pc.pending = some bs → x.received = written log ++ bs
  committed : written log <+: x.received
  fits : x.pc.Fits log
  failed : x.pc = .aborted ∨ x.pc = .stray → oom

section Thread
variable {size : Nat} {oom : Prop} {hs : IsSize size} {hsmall : size ≤ 2 ^ 29} {L : ReceiveLoop} {x x' : Receiver}
  {log : List Entry} {d : Entry} {received : List UInt8}

private theorem Receives.level (h : Receives oom ⟨.waiting, received⟩ log) (hreq : d.request = .freeLevel) :
    Receives oom (L.after ⟨.waiting, received⟩ d.result) (log ++ [d]) := by
  have hwritten : written (log ++ [d]) = written log := by
    rw [written_concat, hreq]
    exact List.append_nil _
  have hreceived : received = written log ++ [] := h.received [] rfl
  cases hres : d.result with
  | level free =>
    have hafter : L.after ⟨.waiting, received⟩ (.level free) = ⟨(L.bufSize free).elim .waiting .receiving, received⟩ := rfl
    rw [hafter]
    cases hlen : L.bufSize free with
    | none => exact ⟨fun bs hbs => by cases hbs; rw [hwritten]; exact hreceived, hwritten ▸ h.committed, trivial, by simp⟩
    | some n =>
      refine ⟨fun bs hbs => by cases hbs; rw [hwritten]; exact hreceived, hwritten ▸ h.committed, ?_, by simp⟩
      exact ⟨log, d, free, rfl, hreq, hres, L.le free n hlen⟩
  | done | flag | code | bytes =>
    exact ⟨fun bs hbs => by cases hbs; rw [hwritten]; exact hreceived, hwritten ▸ h.committed, trivial,
      by simp [ReceiveLoop.after]⟩

private theorem Receives.store {n : Nat} {data : List UInt8} {alloc : Alloc} (h : Receives oom ⟨.storing n data, received⟩ log)
    (hreq : d.request = .reserveCommit alloc n data data.length) (hpast : (stocked hs hsmall oom).Past .producer log d) :
    Receives oom (L.after ⟨.storing n data, received⟩ d.result) (log ++ [d]) := by
  obtain ⟨⟨hmay, logs, rfl, hinv, hstock⟩, s', htrace⟩ := hpast
  have hinv : Shared size oom d.origin logs := hinv
  obtain ⟨hdata, pre, e, free, hlog, hereq, heres, hfree⟩ := h.fits
  have hroom := hstock.1 pre e free hlog hereq heres
  have halloc : alloc = none → oom := by
    have hproper : d.request.Proper oom := hmay.2
    rw [hreq] at hproper
    exact hproper.1
  rw [hreq] at htrace
  have hreceived : received = written (logs .producer) ++ data := h.received data rfl
  rcases trace_reserve hs hsmall hinv.ok halloc hdata (by omega) htrace with hres | ⟨hres, hoom⟩
  · have hwritten : written (logs .producer ++ [d]) = received := by
      rw [written_concat, hreq, hres, hreceived]
      simp [writtenBy]
    rw [hres]
    exact ⟨fun bs hbs => by cases hbs; rw [hwritten, List.append_nil]; rfl, hwritten ▸ List.prefix_rfl, trivial,
      by simp [ReceiveLoop.after]⟩
  · have hwritten : written (logs .producer ++ [d]) = written (logs .producer) := by
      rw [written_concat, hreq, hres]
      exact List.append_nil _
    rw [hres]
    have hafter : L.after ⟨.storing n data, received⟩ (.code .enomem) =
        ⟨if L.reserveChecked then .aborted else .stray, received⟩ := rfl
    rw [hafter]
    refine ⟨fun bs hbs => ?_, ?_, ?_, fun _ => hoom⟩
    · cases hc : L.reserveChecked <;> rw [hc] at hbs <;> cases hbs
    · rw [hwritten, hreceived]
      exact List.prefix_append _ _
    · cases L.reserveChecked <;> trivial

private theorem Receives.event {e : ReceiveEvent} (h : Receives oom x log) (he : ReceiveLoop.event x e = some x') :
    Receives oom x' log := by
  obtain ⟨pc, received⟩ := x
  cases pc with
  | waiting =>
    cases e with
    | ends =>
      cases he
      exact ⟨nofun, h.committed, trivial, by simp⟩
    | got => cases he
  | receiving n =>
    cases e with
    | got data =>
      obtain ⟨hdata, he⟩ := Option.ite_none_right_eq_some.mp he
      cases he
      have hreceived : received = written log ++ [] := h.received [] rfl
      rw [List.append_nil] at hreceived
      refine ⟨fun bs hbs => ?_, h.committed.trans (List.prefix_append _ _), ⟨hdata, h.fits⟩, by simp⟩
      cases hbs
      dsimp only
      rw [hreceived]
    | ends =>
      cases he
      exact ⟨nofun, h.committed, trivial, by simp⟩
  | storing | stopped | aborted | stray => cases he

private theorem receives_preserved : Driven.Preserved (stocked hs hsmall oom) L.code .producer (Receives oom) where
  call x log d h hcalls hpast := by
    obtain ⟨pc, received⟩ := x
    cases pc with
    | waiting =>
      cases hreq : d.request with
      | freeLevel => exact h.level hreq
      | _ =>
        rw [hreq] at hcalls
        cases hcalls
    | storing n data =>
      cases hreq : d.request with
      | reserveCommit alloc n' data' m =>
        rw [hreq] at hcalls
        obtain ⟨rfl, rfl, rfl⟩ : n' = n ∧ data' = data ∧ m = data.length := of_decide_eq_true hcalls
        exact h.store hreq hpast
      | _ =>
        rw [hreq] at hcalls
        cases hcalls
    | receiving | stopped | aborted | stray => cases hcalls
  event x log e x' h he := h.event he

/-- The thread on a new buffer. -/
theorem receives_run {s : Driven Side Request Cbuf Result Receiver} (hs : IsSize size) (hsmall : size ≤ 2 ^ 29)
    (hrun : Relation.ReflTransGen (L.Step size oom) (ReceiveLoop.start (newCbuf size)) s) :
    (stocked hs hsmall oom).Holds s.pool ∧ Receives oom s.client (s.pool.log .producer) := by
  have hinv : (stocked hs hsmall oom).inv (newCbuf size) fun _ => [] :=
    ⟨shared_newCbuf hs, fun pre d free hd => by simp at hd, nofun⟩
  have hreceives : Receives oom ⟨.waiting, []⟩ [] :=
    ⟨fun bs hbs => by cases hbs; rfl, List.prefix_rfl, trivial, by simp⟩
  obtain ⟨hholds, -, h⟩ := receives_preserved.run (K := stocked hs hsmall oom) hinv hreceives hrun
  exact ⟨hholds, h⟩

/-- Every byte received is read by the user, in the buffer or still to be committed, once and in order. -/
theorem Receives.in_order {s : Cbuf} {logs : Side → List Entry} (h : Receives oom x (logs .producer))
    (hinv : (stocked hs hsmall oom).inv s logs) :
    readBy (logs .consumer) ++ contents size s <+: x.received ∧
      ∀ bs, x.pc.pending = some bs → x.received = readBy (logs .consumer) ++ contents size s ++ bs := by
  obtain ⟨hshared, -, hreads⟩ := hinv
  have hshared : Shared size oom s logs := hshared
  obtain ⟨taken, hwritten, hknows⟩ := hshared.queue (allNear_of_le hsmall _)
  obtain ⟨hcovered, hreturned⟩ := hreads.seenBy
  rw [hknows.returned hcovered, hreturned] at hwritten
  exact ⟨hwritten ▸ h.committed, fun bs hbs => hwritten ▸ h.received bs hbs⟩

end Thread
end Glip.CircularBuffer
