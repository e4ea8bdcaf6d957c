import Glip.CircularBuffer.ReceiveLoop
import Glip.CircularBuffer.SendLoop

/-! What `tcp_com_thread` of backend_tcp.c moves between the two buffers and the data socket, while the user writes and
reads. A pass of its loop calls `tcp_read` and then `tcp_write`; the buffers share nothing, so that each is a system of
its own. -/
namespace Glip.Tcp
open CircularBuffer Foundation

def BUF_SIZE : Nat := 64 * 1024

theorem bufSize_isSize : IsSize BUF_SIZE := ⟨16, by decide, by decide⟩

theorem bufSize_small : BUF_SIZE ≤ 2 ^ 29 := by decide

/-- `tcp_write`: the socket is offered all there is; `EAGAIN` takes nothing, and another error ends the thread. -/
def tcpWrite : SendLoop where
  transferLen fillLevel := if fillLevel = 0 then none else some fillLevel
  discardChecked := true
  le fill n h := by
    split at h <;> cases h
    exact le_rfl

/-- `tcp_read`: as much is read as there is room; `EAGAIN` and the end of the stream give no bytes, and another error ends
the thread. -/
def tcpRead : ReceiveLoop where
  bufSize freeLevel := if freeLevel = 0 then none else some freeLevel
  reserveChecked := true
  le free n h := by
    split at h <;> cases h
    exact le_rfl

/-- Whatever the user writes and however much the socket takes at a time, in every interleaving the bytes given to the
socket are those that the user wrote, each once and in order, and those not given to it yet are in the buffer. An
assertion fails only where the buffer has become full between two loads of the same call, or for want of memory. -/
theorem tcp_write_in_order (oom : Prop) {s : Driven Side Request Cbuf Result Sender}
    (hrun : Relation.ReflTransGen (tcpWrite.Step BUF_SIZE oom) (SendLoop.start (newCbuf BUF_SIZE)) s) :
    s.client.sent <+: written (s.pool.log .producer) ∧
      (s.client.pc.pending = some 0 →
        written (s.pool.log .producer) = s.client.sent ++ contents BUF_SIZE s.pool.shared) ∧
      (∀ data, s.client.pc = .transferring data → data <+: contents BUF_SIZE s.pool.shared) ∧
      (s.client.pc = .aborted → Failed BUF_SIZE (s.pool.log .consumer)) ∧
      (¬oom → ∀ i c, s.pool.calls i = some c → c.rest ≠ .fault) := by
  have hok : Ok BUF_SIZE oom (newCbuf BUF_SIZE) := newCbuf_ok bufSize_isSize
  obtain ⟨hholds, h⟩ := sends_run bufSize_isSize bufSize_small hok rfl (newCbuf_contents BUF_SIZE) hrun
  have hinv : Shared BUF_SIZE oom s.pool.shared s.pool.log := hholds.inv
  obtain ⟨hpre, hrest⟩ := h.in_order bufSize_small hinv (.inr rfl)
  exact ⟨hpre, hrest, fun data hpc => (h.transfer bufSize_small hinv hpc).1, h.aborted, fun hoom i c hc => hholds.no_fault hoom hc⟩

open Driven in
def partialSend : List (Move Side Request SendEvent) :=
  [.other .producer (some (.write [1, 2, 3]))] ++ List.replicate 8 (.other .producer none) ++
    [.call .fillLevel] ++ List.replicate 4 .own ++ [.call (.peek (some fun _ => 0) 3 3)] ++ List.replicate 7 .own ++
    [.event (.took 2), .call (.discard 2)] ++ List.replicate 5 .own

private theorem partialSend_plays :
    (Driven.play (perform BUF_SIZE) tcpWrite.code .consumer (SendLoop.start (newCbuf BUF_SIZE)) partialSend).isSome := by
  decide +kernel

theorem tcp_write_in_order_partial :
    ∃ s : Driven Side Request Cbuf Result Sender, s.client = ⟨.waiting, [1, 2]⟩ ∧
      [1, 2] <+: written (s.pool.log .producer) ∧
      written (s.pool.log .producer) = [1, 2] ++ contents BUF_SIZE s.pool.shared ∧
      contents BUF_SIZE s.pool.shared = [3] := by
  have hother (i : Side) (r : Request) (log : List Entry) (h : .other i (some r) ∈ partialSend) : may False i log r := by
    simp only [partialSend, List.mem_append, List.mem_cons, List.mem_replicate, Driven.Move.other.injEq, reduceCtorEq,
      List.not_mem_nil, and_false, or_false, Option.some_inj] at h
    obtain ⟨rfl, rfl⟩ := h
    exact ⟨trivial, trivial⟩
  have hcall (r : Request) (log : List Entry) (h : .call r ∈ partialSend) : may False .consumer log r := by
    simp only [partialSend, List.mem_append, List.mem_cons, List.mem_replicate, Driven.Move.call.injEq, reduceCtorEq,
      List.not_mem_nil, and_false, or_false, false_or] at h
    rcases h with (rfl | rfl) | rfl
    · exact ⟨trivial, trivial⟩
    · exact ⟨trivial, nofun, le_rfl⟩
    · exact ⟨trivial, trivial⟩
  have hrun := Driven.play_run hother hcall (Option.some_get partialSend_plays).symm
  have hend : (((SendLoop.start (newCbuf BUF_SIZE)).play (perform BUF_SIZE) tcpWrite.code .consumer partialSend).get
      partialSend_plays).client = ⟨.waiting, [1, 2]⟩ := by decide +kernel
  have hcontents : contents BUF_SIZE (((SendLoop.start (newCbuf BUF_SIZE)).play (perform BUF_SIZE) tcpWrite.code .consumer
      partialSend).get partialSend_plays).pool.shared = [3] := by decide +kernel
  have h := tcp_write_in_order False hrun
  rw [hend] at h
  exact ⟨_, hend, h.1, h.2.1 rfl, hcontents⟩

/-- Whatever the socket gives and however the user reads, in every interleaving the bytes that the socket has given are
those that the user has read, those in the buffer and those that the thread has not committed yet, each once and in
order. An assertion fails only for want of memory: the room that `cbuf_free_level` has found cannot be refused. -/
theorem tcp_read_in_order (oom : Prop) {s : Driven Side Request Cbuf Result Receiver}
    (hrun : Relation.ReflTransGen (tcpRead.Step BUF_SIZE oom) (ReceiveLoop.start (newCbuf BUF_SIZE)) s) :
    readBy (s.pool.log .consumer) ++ contents BUF_SIZE s.pool.shared <+: s.client.received ∧
      (∀ bs, s.client.pc.pending = some bs →
        s.client.received = readBy (s.pool.log .consumer) ++ contents BUF_SIZE s.pool.shared ++ bs) ∧
      (¬oom → s.client.pc ≠ .aborted ∧ ∀ i c, s.pool.calls i = some c → c.rest ≠ .fault) := by
  obtain ⟨hholds, h⟩ := receives_run bufSize_isSize bufSize_small hrun
  obtain ⟨hpre, hrest⟩ := h.in_order hholds.inv
  exact ⟨hpre, hrest, fun hoom => ⟨fun hpc => hoom (h.failed (.inl hpc)), fun i c hc => hholds.no_fault hoom hc⟩⟩

open Driven in
def partialRead : List (Move Side Request ReceiveEvent) :=
  [.call .freeLevel] ++ List.replicate 4 .own ++
    [.event (.got [1, 2, 3]), .call (.reserveCommit (some fun _ => 0) BUF_SIZE [1, 2, 3] 3)] ++ List.replicate 9 .own ++
    [.other .consumer (some (.read 1))] ++ List.replicate 8 (.other .consumer none)

private theorem partialRead_plays :
    (Driven.play (perform BUF_SIZE) tcpRead.code .producer (ReceiveLoop.start (newCbuf BUF_SIZE)) partialRead).isSome := by
  decide +kernel

theorem tcp_read_in_order_partial :
    ∃ s : Driven Side Request Cbuf Result Receiver, s.client = ⟨.waiting, [1, 2, 3]⟩ ∧
      [1, 2, 3] = readBy (s.pool.log .consumer) ++ contents BUF_SIZE s.pool.shared ∧
      readBy (s.pool.log .consumer) = [1] := by
  have hother (i : Side) (r : Request) (log : List Entry) (h : .other i (some r) ∈ partialRead) :
      ReceiveLoop.may False i log r := by
    simp only [partialRead, List.mem_append, List.mem_cons, List.mem_replicate, Driven.Move.other.injEq, reduceCtorEq,
      List.not_mem_nil, and_false, or_false, false_or, Option.some_inj] at h
    obtain ⟨rfl, rfl⟩ := h
    exact .inr ⟨1, rfl⟩
  have hcall (r : Request) (log : List Entry) (h : .call r ∈ partialRead) : ReceiveLoop.may False .producer log r := by
    simp only [partialRead, List.mem_append, List.mem_cons, List.mem_replicate, Driven.Move.call.injEq, reduceCtorEq,
      List.not_mem_nil, and_false, or_false, false_or] at h
    rcases h with rfl | rfl
    · exact ⟨trivial, trivial⟩
    · exact ⟨trivial, nofun, by decide, le_rfl⟩
  have hrun := Driven.play_run hother hcall (Option.some_get partialRead_plays).symm
  have hend : (((ReceiveLoop.start (newCbuf BUF_SIZE)).play (perform BUF_SIZE) tcpRead.code .producer partialRead).get
      partialRead_plays).client = ⟨.waiting, [1, 2, 3]⟩ := by decide +kernel
  have hread : readBy ((((ReceiveLoop.start (newCbuf BUF_SIZE)).play (perform BUF_SIZE) tcpRead.code .producer
      partialRead).get partialRead_plays).pool.log .consumer) = [1] := by decide +kernel
  have hall := (tcp_read_in_order False hrun).2.1
  rw [hend] at hall
  exact ⟨_, hend, (hall [] rfl).trans (List.append_nil _), hread⟩

end Glip.Tcp
