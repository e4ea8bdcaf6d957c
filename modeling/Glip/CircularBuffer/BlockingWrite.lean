import Glip.CircularBuffer.BlockingCalls
import Glip.CircularBuffer.WriterRoom

/-! `gb_util_cbuf_write_b`, which writes in pieces as large as the room it finds. -/
namespace Glip.CircularBuffer
open Foundation

/-- Where `gb_util_cbuf_write_b` is in its loop: at the free level or at the write of
`gb_util_cbuf_write`, at its own free level, or at the wait. -/
inductive WritePc where
  | probing
  | writing (sizeDoneTmp : Nat)
  | checking
  | waiting
  | returned (retval : WaitRc)
  deriving DecidableEq

structure WriteB where
  sizeDone : Nat
  pc : WritePc
  deriving DecidableEq

namespace WriteB

def request (data : List UInt8) (x : WriteB) : Option Request :=
  match x.pc with
  | .probing | .checking => some .freeLevel
  | .writing n => some (.write ((data.drop x.sizeDone).take n))
  | .waiting | .returned _ => none

/-- `gb_util_cbuf_write` keeps the free level in an `unsigned int`, and the loop looks at the
count it gives and not at its return code. -/
def after (data : List UInt8) (x : WriteB) (a : Result) : WriteB :=
  match x.pc, a with
  | .probing, .level free =>
    let bufSizeFree := free % 2 ^ 32
    let size := data.length - x.sizeDone
    { x with pc := .writing (if size > bufSizeFree then bufSizeFree else size) }
  | .writing n, _ =>
    let sizeDone := x.sizeDone + n
    ⟨sizeDone, if sizeDone = data.length then .returned .ok else .checking⟩
  | .checking, .level free => { x with pc := if free = 0 then .waiting else .probing }
  | _, _ => x

def waits (x : WriteB) : Option Nat := if x.pc = .waiting then some 0 else none

def resume (x : WriteB) (rv : WaitRc) : WriteB := { x with pc := if rv ≠ .ok then .returned rv else .probing }

def code (data : List UInt8) : BlockingCode WriteB where
  side := .producer
  request := request data
  after := after data
  waits := waits
  resume := resume

def start (p : Pool Side Request Cbuf Result) (telling : Bool) (now : Nat) (cancelWaits : Bool) : Blocking WriteB :=
  ⟨p, telling, ⟨0, .probing⟩, none, now, now, cancelWaits⟩

structure Written (data : List UInt8) (before : List Entry) (x : WriteB) (log : List Entry) : Prop where
  le : x.sizeDone ≤ data.length
  written : written log = written before ++ data.take x.sizeDone
  piece : ∀ n, x.pc = .writing n → n ≤ data.length - x.sizeDone ∧
    ∃ pre d free, log = pre ++ [d] ∧ d.request = .freeLevel ∧ d.result = .level free ∧ n ≤ free
  short : x.pc = .checking ∨ x.pc = .waiting → x.sizeDone < data.length
  returned : ∀ rv, x.pc = .returned rv → (rv = .ok ↔ x.sizeDone = data.length)

variable {size : Nat} {data : List UInt8} {before log : List Entry} {x : WriteB} {d : Entry}

theorem request_legal {r : Request} (h : request data x = some r) : roomMay .producer log r := by
  unfold request at h
  split at h
  · exact .inl (Option.some.inj h).symm
  · exact .inl (Option.some.inj h).symm
  · exact .inr ⟨_, (Option.some.inj h).symm⟩
  · cases h
  · cases h

theorem request_long {r : Request} (h : request data x = some r) (a : Result) : perform size r ≠ .ret a := by
  have hmay : roomMay .producer [] r := request_legal h
  exact roomMay_long hmay a

theorem piece_le (n free : Nat) : (if n > free then free else n) ≤ n ∧ (if n > free then free else n) ≤ free := by
  split <;> omega

private theorem level_told (hs : IsSize size) (hpast : (roomed hs []).Past .producer log d)
    (hreq : d.request = .freeLevel) : ∃ free, d.result = .level free ∧ written (log ++ [d]) = written log := by
  obtain ⟨⟨-, logs, -, hinv⟩, s', htrace⟩ := hpast
  have hinv : Roomed size [] d.origin logs := hinv
  rw [hreq] at htrace
  obtain ⟨free, hres, -, -⟩ := trace_freeLevel hs hinv.ok htrace
  refine ⟨free, hres, ?_⟩
  rw [written_concat, hres, hreq]
  exact List.append_nil _

/-- Every call that ends has gone as the loop takes it: a level is told, and a piece is written whole. -/
theorem after_written (hs : IsSize size) (h : Written data before x log) (hr : request data x = some d.request)
    (hpast : (roomed hs []).Past .producer log d) : Written data before (after data x d.result) (log ++ [d]) := by
  obtain ⟨done, pc⟩ := x
  cases pc with
  | probing =>
    have hreq : d.request = .freeLevel := (Option.some.inj hr).symm
    obtain ⟨free, hres, hsame⟩ := level_told hs hpast hreq
    rw [hres]
    refine ⟨h.le, hsame.trans h.written, fun n hn => ?_, by simp [after], by simp [after]⟩
    have hmod := Nat.mod_le free (2 ^ 32)
    obtain rfl := WritePc.writing.inj hn
    obtain ⟨hsize, hfree⟩ := piece_le (data.length - done) (free % 2 ^ 32)
    exact ⟨hsize, log, d, free, rfl, hreq, hres, hfree.trans hmod⟩
  | writing n =>
    have hreq : d.request = .write ((data.drop done).take n) := (Option.some.inj hr).symm
    obtain ⟨⟨-, logs, hlogs, hinv⟩, s', htrace⟩ := hpast
    have hinv : Roomed size [] d.origin logs := hinv
    obtain ⟨hn, pre, e, free, hlog, hereq, heres, hfree⟩ := h.piece n rfl
    have hle := h.le
    have hlen : ((data.drop done).take n).length = n := by
      rw [List.length_take, List.length_drop]
      exact Nat.min_eq_left hn
    have hroom := hinv.room pre e free (hlogs.trans hlog) hereq heres
    have hfits : used size d.origin + ((data.drop done).take n).length ≤ size := by omega
    have hok := trace_write hs hinv.ok hfits (hreq ▸ htrace)
    rw [hok, show after data ⟨done, .writing n⟩ (.code .ok) =
      ⟨done + n, if done + n = data.length then .returned .ok else .checking⟩ from rfl]
    refine ⟨?_, ?_, ?_, ?_, ?_⟩
    · dsimp only at hle hn ⊢
      omega
    · rw [written_concat, h.written, hok, hreq, List.append_assoc, List.take_add]
      rfl
    · intro m hm
      dsimp only at hm
      split at hm <;> cases hm
    · intro hpc
      dsimp only at hle hn hpc ⊢
      split at hpc
      · simp at hpc
      · omega
    · intro rv hrv
      dsimp only at hrv ⊢
      split at hrv
      case isTrue hdone =>
        cases hrv
        simp [hdone]
      case isFalse => cases hrv
  | checking =>
    have hreq : d.request = .freeLevel := (Option.some.inj hr).symm
    obtain ⟨free, hres, hsame⟩ := level_told hs hpast hreq
    have hshort := h.short (.inl rfl)
    rw [hres]
    refine ⟨h.le, hsame.trans h.written, ?_, fun _ => hshort, ?_⟩
    · intro n hn
      simp only [after] at hn
      split at hn <;> cases hn
    · intro rv hrv
      simp only [after] at hrv
      split at hrv <;> cases hrv
  | waiting => cases hr
  | returned rv => cases hr

/-- A wait returns to the loop, or its code is returned while bytes are left. -/
theorem resume_written (h : Written data before x log) (hw : (waits x).isSome) (rv : WaitRc) :
    Written data before (resume x rv) log := by
  have hpc : x.pc = .waiting := by
    unfold waits at hw
    split at hw
    · assumption
    · cases hw
  have hshort := h.short (.inr hpc)
  refine ⟨h.le, h.written, fun n hn => ?_, fun hpc => ?_, fun rv' hrv => ?_⟩
  · simp only [resume] at hn
    split at hn <;> cases hn
  · exact hshort
  · simp only [resume] at hrv ⊢
    split at hrv
    case isTrue hne =>
      cases hrv
      simp [hne, Nat.ne_of_lt hshort]
    case isFalse => cases hrv

theorem preserved (hs : IsSize size) (deadline : Option Nat) :
    Blocking.Preserved (roomed hs []) (code data) deadline fun x log _ => Written data before x log where
  exclusive x hw := by
    simp only [code, waits] at hw
    split at hw
    case isTrue hpc => simp [code, request, hpc]
    case isFalse => cases hw
  legal x r log hr := request_legal hr
  call x log now d h hr hpast := after_written hs h hr hpast
  wait x log now rv h hw _ := resume_written h hw rv
  later x log now now' h _ := h

theorem coherent_start {p : Pool Side Request Cbuf Result} (hidle : p.calls .producer = none) (telling : Bool) (now : Nat)
    (cancelWaits : Bool) (deadline : Option Nat) :
    (start p telling now cancelWaits).Coherent (code data) deadline := Blocking.coherent_of_idle hidle rfl le_rfl

theorem start_written {p : Pool Side Request Cbuf Result} {telling : Bool} {now : Nat} {cancelWaits : Bool} :
    Written data (p.log .producer) (start p telling now cancelWaits).client (p.log .producer) :=
  ⟨Nat.zero_le _, by simp [start], by simp [start], by simp [start], by simp [start]⟩

/-- `gb_util_cbuf_write_b` begins with any calls made before it and the reader in any call. In every
interleaving, where it returns, the first `*size_written` bytes of the data have been written behind
what was written before, those bytes and no others, and it returns 0 exactly when that is all of them. -/
theorem write_b_data (k : Nat) (hk : k ≤ 62) (data : List UInt8) (deadline : Option Nat)
    (p : Pool Side Request Cbuf Result) (hp : Pool.Reachable (perform (2 ^ k)) roomMay (newCbuf (2 ^ k)) p)
    (hidle : p.calls .producer = none) (telling : Bool) (now : Nat) (cancelWaits : Bool) (s : Blocking WriteB)
    (hrun : Relation.ReflTransGen (Blocking.Step (2 ^ k) (code data) roomMay deadline fun _ => True)
      (start p telling now cancelWaits) s) (retval : WaitRc) (hret : s.client.pc = .returned retval) :
    s.client.sizeDone ≤ data.length ∧
      written (s.pool.log .producer) = written (p.log .producer) ++ data.take s.client.sizeDone ∧
      (∃ taken, written (s.pool.log .producer) = taken ++ contents (2 ^ k) s.pool.shared) ∧
      (retval = .ok ↔ s.client.sizeDone = data.length) := by
  have hs : IsSize (2 ^ k) := ⟨k, hk, rfl⟩
  have hK := (roomed hs []).sound (newCbuf_roomed hs) hp
  obtain ⟨hK', -, h⟩ :=
    (preserved hs deadline).run hK (coherent_start hidle telling now cancelWaits deadline) start_written hrun
  have hinv : Roomed (2 ^ k) [] s.pool.shared s.pool.log := hK'.inv
  exact ⟨h.le, h.written, by simpa using hinv.queue, h.returned retval hret⟩

open Blocking in
def cancelledWrite : List Move :=
  Move.owns 17 ++ Move.peers (.read 1) 6 ++ [.test, .leave] ++ Move.owns 17 ++ [.cancel, .test, .leave]

private theorem cancelledWrite_plays :
    ((start (Pool.start (newCbuf 2)) false 0 false).play 2 (code [1, 2, 3, 4]) none cancelledWrite).isSome := by
  decide +kernel

private theorem cancelledWrite_legal (r : Request) (log : List Entry) (h : .peer (some r) ∈ cancelledWrite) :
    roomMay .consumer log r := by
  simp [cancelledWrite, Blocking.Move.owns, Blocking.Move.peers] at h
  rw [h]
  trivial

theorem write_b_data_cancelled :
    ∃ s : Blocking WriteB, s.client.pc = .returned .ecanceled ∧ s.client.sizeDone = 3 ∧
      written (s.pool.log .producer) = [1, 2, 3] :=
  have hrun := Blocking.play_run cancelledWrite_legal (Option.some_get cancelledWrite_plays).symm
  have hret : (((start (Pool.start (newCbuf 2)) false 0 false).play 2 (code [1, 2, 3, 4]) none cancelledWrite).get
      cancelledWrite_plays).client = ⟨3, .returned .ecanceled⟩ := by decide +kernel
  have h := write_b_data 1 (by decide) [1, 2, 3, 4] none _ .refl rfl false 0 false _ hrun .ecanceled
    (by rw [hret])
  ⟨_, by rw [hret], by rw [hret], by rw [h.2.1, hret]; rfl⟩

end WriteB
end Glip.CircularBuffer
