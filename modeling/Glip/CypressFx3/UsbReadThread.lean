import Glip.CircularBuffer.ReceiveLoop
import Glip.CypressFx3.UsbWriteThread

/-! The thread of backend_cypressfx3.c that fills the read buffer from the device. -/
namespace Glip.CypressFx3
open CircularBuffer Foundation

/-- As many complete packets as the buffer can hold, up to the most that a transfer may have. -/
def bufSize (freeLevel : Nat) : Nat :=
  min (freeLevel / USB_TRANSFER_PACKET_SIZE_BYTES) USB_MAX_PACKETS_PER_TRANSFER * USB_TRANSFER_PACKET_SIZE_BYTES

/-- `usb_read_thread`; it asserts that the reservation succeeds. A transfer that fails has given nothing. -/
def usbReadThread : ReceiveLoop where
  bufSize freeLevel := if bufSize freeLevel = 0 then none else some (bufSize freeLevel)
  reserveChecked := true
  le freeLevel n h := by
    split at h <;> cases h
    exact (Nat.mul_le_mul_right _ (Nat.min_le_left _ _)).trans (Nat.div_mul_le_self freeLevel _)

/-- In every interleaving with the user who reads, the bytes that the device has given are those that the user has read,
those in the buffer and those that the thread has not committed yet; the assertions fail only for want of memory. -/
theorem usb_read_in_order (oom : Prop) {s : Driven Side Request Cbuf Result Receiver}
    (hrun : Relation.ReflTransGen (usbReadThread.Step USB_BUF_SIZE oom) (ReceiveLoop.start (newCbuf USB_BUF_SIZE)) s) :
    readBy (s.pool.log .consumer) ++ contents USB_BUF_SIZE s.pool.shared <+: s.client.received ∧
      (∀ bs, s.client.pc.pending = some bs →
        s.client.received = readBy (s.pool.log .consumer) ++ contents USB_BUF_SIZE s.pool.shared ++ bs) ∧
      (¬oom → s.client.pc ≠ .aborted ∧ ∀ i c, s.pool.calls i = some c → c.rest ≠ .fault) := by
  have hs : IsSize USB_BUF_SIZE := ⟨21, by decide, by decide⟩
  have hsmall : USB_BUF_SIZE ≤ 2 ^ 29 := by decide
  obtain ⟨hholds, h⟩ := receives_run hs hsmall hrun
  obtain ⟨hpre, hrest⟩ := h.in_order hholds.inv
  exact ⟨hpre, hrest, fun hoom => ⟨fun hpc => hoom (h.failed (.inl hpc)), fun i c hc => hholds.no_fault hoom hc⟩⟩

end Glip.CypressFx3
