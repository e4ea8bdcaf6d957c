import Glip.CircularBuffer.ReceiveLoop
import Glip.CircularBuffer.SendLoop
import Mathlib.Tactic.SplitIfs

/-! The two threads of backend_cypressfx2.c that move data between the buffers and the USB device. -/
namespace Glip.CypressFx2
open CircularBuffer Foundation

def USB_TRANSFER_PACKET_SIZE_BYTES : Nat := 512
def USB_MAX_PACKETS_PER_TRANSFER : Nat := 64
def USB_BUF_SIZE : Nat := USB_TRANSFER_PACKET_SIZE_BYTES * USB_MAX_PACKETS_PER_TRANSFER * 2

def getFifoWidth : Nat := 2

theorem usbBufSize_isSize : IsSize USB_BUF_SIZE := ⟨16, by decide, by decide⟩

theorem usbBufSize_small : USB_BUF_SIZE ≤ 2 ^ 29 := by decide

/-- As many full packets as there are, up to the most that a transfer may have. -/
def packetBytes (level : Nat) : Nat :=
  min (level / USB_TRANSFER_PACKET_SIZE_BYTES) USB_MAX_PACKETS_PER_TRANSFER * USB_TRANSFER_PACKET_SIZE_BYTES

theorem packetBytes_le (level : Nat) : packetBytes level ≤ level :=
  (Nat.mul_le_mul_right _ (Nat.min_le_left _ _)).trans (Nat.div_mul_le_self level _)

/-- Full packets, or the whole words of a short one. -/
def transferLen (writeBufFillLevel : Nat) : Nat :=
  if writeBufFillLevel ≥ USB_TRANSFER_PACKET_SIZE_BYTES then packetBytes writeBufFillLevel
  else writeBufFillLevel - writeBufFillLevel % getFifoWidth

theorem transferLen_le (level : Nat) : transferLen level ≤ level := by
  unfold transferLen
  split_ifs
  · exact packetBytes_le level
  · exact Nat.sub_le _ _

/-- The assertion before the peek: only full words are transferred. -/
theorem getFifoWidth_dvd_transferLen (level : Nat) : getFifoWidth ∣ transferLen level := by
  unfold transferLen
  split_ifs
  · exact Nat.dvd_mul_left_of_dvd (by decide) _
  · exact Nat.dvd_sub_mod level

/-- `usb_write_thread`; the result of `cbuf_discard` is not looked at. A transfer that fails has taken nothing. -/
def usbWriteThread : SendLoop where
  transferLen level := if level = 0 then none else some (transferLen level)
  discardChecked := false
  le level n h := by
    split at h <;> cases h
    exact transferLen_le level

/-- `usb_read_thread`; the result of `cbuf_reserve` is not looked at. A transfer that fails has given nothing. -/
def usbReadThread : ReceiveLoop where
  bufSize level := if packetBytes level = 0 then none else some (packetBytes level)
  reserveChecked := false
  le level n h := by
    split at h <;> cases h
    exact packetBytes_le level

def openWriteBuf : Cbuf :=
  { newCbuf USB_BUF_SIZE with hintMaxReadSize := USB_MAX_PACKETS_PER_TRANSFER * USB_TRANSFER_PACKET_SIZE_BYTES }

theorem openWriteBuf_ok (oom : Prop) : Ok USB_BUF_SIZE oom openWriteBuf := by
  obtain ⟨hwr, hrd, hfill, hlen, hwrite, hread⟩ : Ok USB_BUF_SIZE oom (newCbuf USB_BUF_SIZE) :=
    newCbuf_ok usbBufSize_isSize
  exact ⟨hwr, hrd, hfill, hlen, hwrite, hread⟩

/-- In every interleaving with the user who writes, and however much the device takes at a time: no byte leaves the buffer
unsent, and the device has been sent as many bytes too many as refused discards were for. A discard is refused only where
the buffer has become full between two of its loads; as long as none is, every byte is sent once and in order. Every
transfer is of the oldest bytes and of whole words. -/
theorem usb_write_accounting (oom : Prop) {s : Driven Side Request Cbuf Result Sender}
    (hrun : Relation.ReflTransGen (usbWriteThread.Step USB_BUF_SIZE oom) (SendLoop.start openWriteBuf) s) :
    (∃ gone, written (s.pool.log .producer) = gone ++ contents USB_BUF_SIZE s.pool.shared ∧ gone.Sublist s.client.sent) ∧
      (∀ n, s.client.pc.pending = some n → s.client.sent.length + used USB_BUF_SIZE s.pool.shared =
        (written (s.pool.log .producer)).length + refused (s.pool.log .consumer) + n) ∧
      (∀ d ∈ s.pool.log .consumer, ∀ n, d.request = .discard n → d.result ≠ .code .ok → Race USB_BUF_SIZE d.seen) ∧
      (refused (s.pool.log .consumer) = 0 → s.client.sent <+: written (s.pool.log .producer)) ∧
      ∀ data, s.client.pc = .transferring data →
        data <+: contents USB_BUF_SIZE s.pool.shared ∧ getFifoWidth ∣ data.length := by
  obtain ⟨hholds, h⟩ := sends_run usbBufSize_isSize usbBufSize_small (openWriteBuf_ok oom) rfl
    (newCbuf_contents USB_BUF_SIZE) hrun
  have hinv : Shared USB_BUF_SIZE oom s.pool.shared s.pool.log := hholds.inv
  refine ⟨h.complete usbBufSize_small hinv, fun n hn => h.total usbBufSize_small hinv hn, h.torn, fun hnone => (h.in_order usbBufSize_small hinv (.inl hnone)).1, ?_⟩
  intro data hpc
  obtain ⟨hdata, fill, hlen⟩ := h.transfer usbBufSize_small hinv hpc
  refine ⟨hdata, ?_⟩
  obtain ⟨-, hlen⟩ := Option.ite_none_left_eq_some.mp hlen
  rw [← Option.some.inj hlen]
  exact getFifoWidth_dvd_transferLen fill

open Driven in
def shortPacket : List (Move Side Request SendEvent) :=
  [.other .producer (some (.write [1, 2, 3, 4, 5]))] ++ List.replicate 8 (.other .producer none) ++
    [.call .fillLevel] ++ List.replicate 4 .own ++ [.call (.peek (some fun _ => 0) 4 4)] ++ List.replicate 7 .own ++
    [.event (.took 4), .call (.discard 4)] ++ List.replicate 5 .own

private theorem shortPacket_plays :
    (Driven.play (perform USB_BUF_SIZE) usbWriteThread.code .consumer (SendLoop.start openWriteBuf) shortPacket).isSome := by
  decide +kernel

theorem usb_write_accounting_short :
    ∃ s : Driven Side Request Cbuf Result Sender, s.client = ⟨.waiting, [1, 2, 3, 4]⟩ ∧
      4 + used USB_BUF_SIZE s.pool.shared = (written (s.pool.log .producer)).length + 0 ∧
      [1, 2, 3, 4] <+: written (s.pool.log .producer) := by
  have hother (i : Side) (r : Request) (log : List Entry) (h : .other i (some r) ∈ shortPacket) : may False i log r := by
    simp only [shortPacket, List.mem_append, List.mem_cons, List.mem_replicate, Driven.Move.other.injEq, reduceCtorEq,
      List.not_mem_nil, and_false, or_false, Option.some_inj] at h
    obtain ⟨rfl, rfl⟩ := h
    exact ⟨trivial, trivial⟩
  have hcall (r : Request) (log : List Entry) (h : .call r ∈ shortPacket) : may False .consumer log r := by
    simp only [shortPacket, List.mem_append, List.mem_cons, List.mem_replicate, Driven.Move.call.injEq, reduceCtorEq,
      List.not_mem_nil, and_false, or_false, false_or] at h
    rcases h with (rfl | rfl) | rfl
    · exact ⟨trivial, trivial⟩
    · exact ⟨trivial, nofun, le_rfl⟩
    · exact ⟨trivial, trivial⟩
  have hrun := Driven.play_run hother hcall (Option.some_get shortPacket_plays).symm
  have hend : ((SendLoop.start openWriteBuf).play (perform USB_BUF_SIZE) usbWriteThread.code .consumer shortPacket |>.get
      shortPacket_plays).client = ⟨.waiting, [1, 2, 3, 4]⟩ := by decide +kernel
  have hrefused : refused (((SendLoop.start openWriteBuf).play (perform USB_BUF_SIZE) usbWriteThread.code .consumer
      shortPacket |>.get shortPacket_plays).pool.log .consumer) = 0 := by decide +kernel
  obtain ⟨-, htotal, -, hpre, -⟩ := usb_write_accounting False hrun
  rw [hend, hrefused] at htotal
  rw [hend] at hpre
  exact ⟨_, hend, htotal 0 rfl, hpre hrefused⟩

/-- In every interleaving with the user who reads, the bytes that the device has given are those that the user has read,
those in the buffer and those that the thread has not committed yet, each once and in order. The room that
`cbuf_free_level` has found is not refused, so that the pointer of the transfer is good unless there is no memory. -/
theorem usb_read_in_order (oom : Prop) {s : Driven Side Request Cbuf Result Receiver}
    (hrun : Relation.ReflTransGen (usbReadThread.Step USB_BUF_SIZE oom) (ReceiveLoop.start (newCbuf USB_BUF_SIZE)) s) :
    readBy (s.pool.log .consumer) ++ contents USB_BUF_SIZE s.pool.shared <+: s.client.received ∧
      (∀ bs, s.client.pc.pending = some bs →
        s.client.received = readBy (s.pool.log .consumer) ++ contents USB_BUF_SIZE s.pool.shared ++ bs) ∧
      (¬oom → s.client.pc ≠ .stray ∧ ∀ i c, s.pool.calls i = some c → c.rest ≠ .fault) := by
  obtain ⟨hholds, h⟩ := receives_run usbBufSize_isSize usbBufSize_small hrun
  obtain ⟨hpre, hrest⟩ := h.in_order hholds.inv
  exact ⟨hpre, hrest, fun hoom => ⟨fun hpc => hoom (h.failed (.inr hpc)), fun i c hc => hholds.no_fault hoom hc⟩⟩

end Glip.CypressFx2
