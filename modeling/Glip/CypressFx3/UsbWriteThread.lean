import Glip.Foundation.GuardedRun
import Mathlib.Data.List.Infix
import Mathlib.Tactic.SplitIfs

/-! The thread of backend_cypressfx3.c that sends the write buffer to the device. -/
namespace Glip.CypressFx3
open Foundation

def USB_TRANSFER_PACKET_SIZE_BYTES : Nat := 1024
def USB_MAX_PACKETS_PER_TRANSFER : Nat := 1024
def USB_BUF_SIZE : Nat := USB_TRANSFER_PACKET_SIZE_BYTES * USB_MAX_PACKETS_PER_TRANSFER * 2

/-- Where the thread is: at its wait, at the peek, at the transfer of the bytes that it has a pointer to, at the
discard, at the second look at the level, at the packet of length zero, or where an assertion has failed. -/
inductive WritePc where
  | waiting
  | peeking (transferLen : Nat)
  | transferring (data : List UInt8)
  | discarding (transferLenSent : Nat)
  | checking
  | ending
  | aborted
  deriving DecidableEq

inductive TransferRv where
  | ok
  | timeout
  | error
  deriving DecidableEq

/-- The thread with the write buffer. Besides it there are all bytes written into the buffer, all bytes sent, and
how many bytes the last transfer had that returned 0. -/
structure WriteThread where
  pc : WritePc
  writeBuf : List UInt8
  written : List UInt8
  sent : List UInt8
  last : Option Nat
  deriving DecidableEq

def newWriteThread : WriteThread := ⟨.waiting, [], [], [], none⟩

/-- Steps of the producer and of the thread. A level that the thread sees is never too large. -/
inductive WriteStep where
  | write (data : List UInt8)
  | wake (writeBufFillLevel : Nat)
  | peek (level : Nat)
  | transfer (rv : TransferRv) (transferLenSent : Nat)
  | discard (level : Nat)
  | check (level : Nat)
  | zeroLength (rv : TransferRv)

def transferLen (fifoWidth fill : Nat) : Nat :=
  if fill ≥ USB_TRANSFER_PACKET_SIZE_BYTES then
    min (fill / USB_TRANSFER_PACKET_SIZE_BYTES) USB_MAX_PACKETS_PER_TRANSFER * USB_TRANSFER_PACKET_SIZE_BYTES
  else fill - fill % fifoWidth

namespace WriteThread
variable (s : WriteThread)

/-- Behind a transfer: an error has sent nothing, and the next pass begins. -/
def transferred (data : List UInt8) (n : Nat) : TransferRv → Option WriteThread
  | .error => if n = 0 then some { s with pc := .waiting } else none
  | .timeout => if n ≤ data.length then some { s with pc := .discarding n, sent := s.sent ++ data.take n } else none
  | .ok =>
    if n ≤ data.length then some { s with pc := .discarding n, sent := s.sent ++ data.take n, last := some n } else none

end WriteThread

def usbWriteThread (fifoWidth : Nat) : Guarded WriteThread WriteStep where
  step s
    | .write data =>
      if s.writeBuf.length + data.length ≤ USB_BUF_SIZE then
        some { s with writeBuf := s.writeBuf ++ data, written := s.written ++ data }
      else none
    | .wake fill => match s.pc with
      | .waiting =>
        if fill ≤ s.writeBuf.length then
          let len := transferLen fifoWidth fill
          if fill = 0 then some s
          else some { s with pc := if len % fifoWidth = 0 then .peeking len else .aborted }
        else none
      | _ => none
    | .peek level => match s.pc with
      | .peeking len =>
        if level ≤ s.writeBuf.length then
          some { s with pc := if len = 0 ∨ len ≤ level then .transferring (s.writeBuf.take len) else .aborted }
        else none
      | _ => none
    | .transfer rv n => match s.pc with
      | .transferring data => s.transferred data n rv
      | _ => none
    | .discard level => match s.pc with
      | .discarding n =>
        if level ≤ s.writeBuf.length then
          some (if n ≤ level then { s with pc := .checking, writeBuf := s.writeBuf.drop n } else { s with pc := .aborted })
        else none
      | _ => none
    | .check level => match s.pc with
      | .checking =>
        -- `is_full_transfer` is 1 in both branches above
        if level ≤ s.writeBuf.length then some { s with pc := if level = 0 then .ending else .waiting } else none
      | _ => none
    | .zeroLength rv => match s.pc with
      | .ending => some { s with pc := .waiting, last := if rv = .ok then some 0 else s.last }
      | _ => none

def EndsShort (last : Option Nat) : Prop := ∃ n, last = some n ∧ (n = 0 ∨ n % USB_TRANSFER_PACKET_SIZE_BYTES ≠ 0)

/-- The bytes behind those sent are still in the buffer, a request is for whole words at the beginning of the
buffer, and where the thread waits with an empty buffer, the device has been told to forward what was sent. -/
structure WriteThread.Sound (fifoWidth : Nat) (s : WriteThread) : Prop where
  sent_prefix : s.sent <+: s.written
  request : ∀ data, s.pc = .transferring data → fifoWidth ∣ data.length ∧ data <+: s.writeBuf
  told : s.pc = .waiting → s.writeBuf = [] → s.sent ≠ [] → EndsShort s.last

/-- The packet of length zero does not fail where it is needed: the buffer is still empty, and the last transfer
that succeeded was one of full packets, or there was none. -/
def EndReached (s : WriteThread) : WriteStep → Prop
  | .zeroLength rv => rv ≠ .ok → s.writeBuf = [] → s.sent ≠ [] → EndsShort s.last
  | _ => True

def WriteThread.ahead (s : WriteThread) : Nat :=
  match s.pc with
  | .discarding n => n
  | _ => 0

def WriteThread.Knows (fifoWidth : Nat) (s : WriteThread) : Prop :=
  match s.pc with
  | .peeking len => fifoWidth ∣ len ∧ len ≤ s.writeBuf.length ∧ s.writeBuf ≠ []
  | .transferring data => fifoWidth ∣ data.length ∧ data <+: s.writeBuf ∧ s.writeBuf ≠ []
  | _ => True

structure WriteThread.Holds (fifoWidth : Nat) (s : WriteThread) : Prop where
  knows : s.Knows fifoWidth
  kept : s.pc ≠ .aborted → s.written = s.sent ++ s.writeBuf.drop s.ahead
  sent_prefix : s.sent <+: s.written
  ahead_le : s.ahead ≤ s.writeBuf.length

def WriteThread.Told (s : WriteThread) : Prop := s.pc = .waiting → s.writeBuf = [] → s.sent ≠ [] → EndsShort s.last

theorem transferLen_spec {fifoWidth : Nat} (hw : fifoWidth ∣ USB_TRANSFER_PACKET_SIZE_BYTES) (fill : Nat) :
    fifoWidth ∣ transferLen fifoWidth fill ∧ transferLen fifoWidth fill ≤ fill := by
  unfold transferLen
  split
  · refine ⟨Nat.dvd_mul_left_of_dvd hw _, ?_⟩
    exact Nat.le_trans (Nat.mul_le_mul_right _ (Nat.min_le_left _ _)) (Nat.div_mul_le_self _ _)
  · exact ⟨Nat.dvd_sub_mod fill, Nat.sub_le _ _⟩

section Steps
variable {fifoWidth n : Nat} {s s' : WriteThread} {data : List UInt8}

theorem WriteThread.Holds.request (h : s.Holds fifoWidth) (hpc : s.pc = .transferring data) :
    fifoWidth ∣ data.length ∧ data <+: s.writeBuf ∧ s.writeBuf ≠ [] := by
  have hknows := h.knows
  rwa [WriteThread.Knows, hpc] at hknows

theorem WriteThread.Holds.sound (h : s.Holds fifoWidth) (htold : s.Told) : s.Sound fifoWidth :=
  ⟨h.sent_prefix, fun _ hpc => ⟨(h.request hpc).1, (h.request hpc).2.1⟩, htold⟩

/-- Away from its wait the thread owes the device nothing yet. -/
theorem WriteThread.told_of_ne (h : s.pc ≠ .waiting) : s.Told := fun hpc => absurd hpc h

theorem WriteThread.told_of_ne_nil (h : s.writeBuf ≠ []) : s.Told := fun _ hnil => absurd hnil h

/-- A step between two places at which nothing is ahead. -/
theorem WriteThread.Holds.moves (h : s.Holds fifoWidth) (hpc : s.pc ≠ .aborted) (hahead : s.ahead = 0)
    (t : WriteThread) (hbuf : t.writeBuf = s.writeBuf ∧ t.written = s.written ∧ t.sent = s.sent) (hahead' : t.ahead = 0)
    (hknows : t.Knows fifoWidth) : t.Holds fifoWidth := by
  obtain ⟨hbuf, hwritten, hsent⟩ := hbuf
  refine ⟨hknows, fun _ => ?_, ?_, ?_⟩
  · rw [hbuf, hwritten, hsent, hahead', ← hahead]
    exact h.kept hpc
  · rw [hwritten, hsent]
    exact h.sent_prefix
  · rw [hahead']
    exact Nat.zero_le _

/-- The producer adds bytes at the end. -/
theorem WriteThread.Holds.write (h : s.Holds fifoWidth) (data : List UInt8) :
    WriteThread.Holds fifoWidth { s with writeBuf := s.writeBuf ++ data, written := s.written ++ data } := by
  obtain ⟨hknows, hkept, hprefix, hahead⟩ := h
  refine ⟨?_, fun hpc => ?_, hprefix.trans (List.prefix_append _ _), ?_⟩
  · obtain ⟨pc, buf, written, sent, last⟩ := s
    cases pc with
    | peeking len =>
      obtain ⟨hdvd, hle, hne⟩ := hknows
      exact ⟨hdvd, by rw [List.length_append]; exact Nat.le_add_right_of_le hle, by simp [hne]⟩
    | transferring data' =>
      obtain ⟨hdvd, hle, hne⟩ := hknows
      exact ⟨hdvd, hle.trans (List.prefix_append _ _), by simp [hne]⟩
    | _ => trivial
  · change s.written ++ data = s.sent ++ (s.writeBuf ++ data).drop s.ahead
    rw [List.drop_append_of_le_length hahead, ← List.append_assoc, ← hkept hpc]
  · change s.ahead ≤ (s.writeBuf ++ data).length
    rw [List.length_append]
    exact Nat.le_add_right_of_le hahead

/-- A transfer sends bytes that are known to be the next ones. -/
theorem WriteThread.Holds.sends (h : s.Holds fifoWidth) (hpc : s.pc = .transferring data) (hn : n ≤ data.length)
    (last : Option Nat) :
    WriteThread.Holds fifoWidth { s with pc := .discarding n, sent := s.sent ++ data.take n, last := last } := by
  obtain ⟨-, ⟨rest, hrest⟩, -⟩ := h.request hpc
  have hkept : s.written = s.sent ++ s.writeBuf := by
    have := h.kept (by rw [hpc]; nofun)
    rwa [WriteThread.ahead, hpc, List.drop_zero] at this
  have hdrop : s.sent ++ data.take n ++ s.writeBuf.drop n = s.written := by
    rw [hkept, List.append_assoc, ← hrest, List.drop_append_of_le_length hn, ← List.append_assoc, ← List.append_assoc,
      List.append_assoc, List.append_assoc, ← List.append_assoc (data.take n), List.take_append_drop]
  refine ⟨trivial, fun _ => hdrop.symm, ⟨_, hdrop⟩, ?_⟩
  change n ≤ s.writeBuf.length
  rw [← hrest, List.length_append]
  exact Nat.le_add_right_of_le hn

/-- A failed assertion stops the thread where nothing is ahead. -/
theorem WriteThread.Holds.aborts (h : s.Holds fifoWidth) : WriteThread.Holds fifoWidth { s with pc := .aborted } :=
  ⟨trivial, fun hab => absurd rfl hab, h.sent_prefix, Nat.zero_le _⟩

theorem WriteThread.ne_nil_of_level {level : Nat} (hle : level ≤ s.writeBuf.length) (hpos : level ≠ 0) :
    s.writeBuf ≠ [] := by
  rintro hnil
  rw [hnil] at hle
  exact hpos (Nat.le_zero.mp hle)

theorem WriteThread.Holds.written (h : s.Holds fifoWidth) (htold : s.Told)
    (hstep : (usbWriteThread fifoWidth).step s (.write data) = some s') : s'.Holds fifoWidth ∧ s'.Told := by
  simp only [usbWriteThread] at hstep
  split at hstep
  · cases hstep
    refine ⟨h.write data, fun hpc hnil hsent => ?_⟩
    exact htold hpc (List.append_eq_nil_iff.mp hnil).1 hsent
  · cases hstep

theorem WriteThread.Holds.wake (hw : fifoWidth ∣ USB_TRANSFER_PACKET_SIZE_BYTES) (h : s.Holds fifoWidth)
    (htold : s.Told) {fill : Nat} (hstep : (usbWriteThread fifoWidth).step s (.wake fill) = some s') :
    s'.Holds fifoWidth ∧ s'.Told := by
  simp only [usbWriteThread] at hstep
  split at hstep
  · rename_i hpc
    have hahead : s.ahead = 0 := by rw [WriteThread.ahead, hpc]
    obtain ⟨hdvd, hlen⟩ := transferLen_spec hw fill
    split_ifs at hstep with hle hzero hwords
    · cases hstep
      exact ⟨h, htold⟩
    · cases hstep
      refine ⟨h.moves (by rw [hpc]; nofun) hahead _ ⟨rfl, rfl, rfl⟩ rfl ?_, WriteThread.told_of_ne nofun⟩
      exact ⟨hdvd, hlen.trans hle, WriteThread.ne_nil_of_level hle hzero⟩
    · exact absurd (Nat.mod_eq_zero_of_dvd hdvd) hwords
  · cases hstep

theorem WriteThread.Holds.peek (h : s.Holds fifoWidth) {level : Nat}
    (hstep : (usbWriteThread fifoWidth).step s (.peek level) = some s') : s'.Holds fifoWidth ∧ s'.Told := by
  simp only [usbWriteThread] at hstep
  split at hstep
  · rename_i len hpc
    have hknows := h.knows
    rw [WriteThread.Knows, hpc] at hknows
    obtain ⟨hdvd, hlen, hne⟩ := hknows
    have hahead : s.ahead = 0 := by rw [WriteThread.ahead, hpc]
    split_ifs at hstep with hle hroom
    · cases hstep
      refine ⟨h.moves (by rw [hpc]; nofun) hahead _ ⟨rfl, rfl, rfl⟩ rfl ?_, WriteThread.told_of_ne nofun⟩
      exact ⟨by rwa [List.length_take_of_le hlen], List.take_prefix _ _, hne⟩
    · cases hstep
      exact ⟨h.aborts, WriteThread.told_of_ne nofun⟩
  · cases hstep

theorem WriteThread.Holds.transfer (h : s.Holds fifoWidth) {rv : TransferRv}
    (hstep : (usbWriteThread fifoWidth).step s (.transfer rv n) = some s') : s'.Holds fifoWidth ∧ s'.Told := by
  simp only [usbWriteThread] at hstep
  split at hstep
  · rename_i data hpc
    have hahead : s.ahead = 0 := by rw [WriteThread.ahead, hpc]
    obtain ⟨-, -, hne⟩ := h.request hpc
    cases rv with
    | error =>
      rw [WriteThread.transferred] at hstep
      split at hstep
      · cases hstep
        have hmoves := h.moves (by rw [hpc]; nofun) hahead { s with pc := .waiting } ⟨rfl, rfl, rfl⟩ rfl trivial
        exact ⟨hmoves, WriteThread.told_of_ne_nil hne⟩
      · cases hstep
    | timeout =>
      rw [WriteThread.transferred] at hstep
      split at hstep
      · cases hstep
        exact ⟨h.sends hpc ‹_› s.last, WriteThread.told_of_ne nofun⟩
      · cases hstep
    | ok =>
      rw [WriteThread.transferred] at hstep
      split at hstep
      · cases hstep
        exact ⟨h.sends hpc ‹_› (some n), WriteThread.told_of_ne nofun⟩
      · cases hstep
  · cases hstep

theorem WriteThread.Holds.discard (h : s.Holds fifoWidth) {level : Nat}
    (hstep : (usbWriteThread fifoWidth).step s (.discard level) = some s') : s'.Holds fifoWidth ∧ s'.Told := by
  simp only [usbWriteThread] at hstep
  split at hstep
  · rename_i n hpc
    have hkept : s.written = s.sent ++ s.writeBuf.drop n := by
      have := h.kept (by rw [hpc]; nofun)
      rwa [WriteThread.ahead, hpc] at this
    split_ifs at hstep with hle hroom
    · cases hstep
      exact ⟨⟨trivial, fun _ => hkept, h.sent_prefix, Nat.zero_le _⟩, WriteThread.told_of_ne nofun⟩
    · cases hstep
      exact ⟨h.aborts, WriteThread.told_of_ne nofun⟩
  · cases hstep

theorem WriteThread.Holds.check (h : s.Holds fifoWidth) {level : Nat}
    (hstep : (usbWriteThread fifoWidth).step s (.check level) = some s') : s'.Holds fifoWidth ∧ s'.Told := by
  simp only [usbWriteThread] at hstep
  split at hstep
  · rename_i hpc
    have hahead : s.ahead = 0 := by rw [WriteThread.ahead, hpc]
    split_ifs at hstep with hle hzero
    · cases hstep
      exact ⟨h.moves (by rw [hpc]; nofun) hahead _ ⟨rfl, rfl, rfl⟩ rfl trivial, WriteThread.told_of_ne nofun⟩
    · cases hstep
      refine ⟨h.moves (by rw [hpc]; nofun) hahead _ ⟨rfl, rfl, rfl⟩ rfl trivial, ?_⟩
      exact WriteThread.told_of_ne_nil (WriteThread.ne_nil_of_level hle hzero)
  · cases hstep

/-- The packet of length zero tells the device exactly if it does not fail where it is needed. -/
theorem WriteThread.Holds.zeroLength (h : s.Holds fifoWidth) {rv : TransferRv}
    (hstep : (usbWriteThread fifoWidth).step s (.zeroLength rv) = some s') :
    s'.Holds fifoWidth ∧ (s'.Told ↔ EndReached s (.zeroLength rv)) := by
  simp only [usbWriteThread] at hstep
  split at hstep
  · rename_i hpc
    have hahead : s.ahead = 0 := by rw [WriteThread.ahead, hpc]
    cases hstep
    refine ⟨h.moves (by rw [hpc]; nofun) hahead _ ⟨rfl, rfl, rfl⟩ rfl trivial, ?_⟩
    by_cases hrv : rv = .ok
    · refine iff_of_true (fun _ _ _ => ⟨0, if_pos hrv, .inl rfl⟩) fun hne => absurd hrv hne
    · rw [WriteThread.Told, EndReached]
      simp [hrv]
  · cases hstep

/-- Every step keeps the invariant, and the device is told afterwards exactly if the end of the transfer is reached. -/
theorem WriteThread.Holds.step (hw : fifoWidth ∣ USB_TRANSFER_PACKET_SIZE_BYTES) (h : s.Holds fifoWidth) (htold : s.Told)
    {i : WriteStep} (hstep : (usbWriteThread fifoWidth).step s i = some s') :
    s'.Holds fifoWidth ∧ (s'.Told ↔ EndReached s i) := by
  have htrue {P : Prop} (hboth : s'.Holds fifoWidth ∧ s'.Told) (hP : P) : s'.Holds fifoWidth ∧ (s'.Told ↔ P) :=
    ⟨hboth.1, iff_of_true hboth.2 hP⟩
  cases i with
  | write data => exact htrue (h.written htold hstep) trivial
  | wake fill => exact htrue (h.wake hw htold hstep) trivial
  | peek level => exact htrue (h.peek hstep) trivial
  | transfer rv n => exact htrue (h.transfer hstep) trivial
  | discard level => exact htrue (h.discard hstep) trivial
  | check level => exact htrue (h.check hstep) trivial
  | zeroLength rv => exact h.zeroLength hstep

end Steps

/-- In every run of the thread and the producer all is well exactly if the packet of length zero never fails where
it is needed. -/
theorem usb_write_thread_sound {fifoWidth : Nat} (hw : fifoWidth = 2 ∨ fifoWidth = 4) {steps : List WriteStep}
    (hrun : ((usbWriteThread fifoWidth).run newWriteThread steps).isSome) :
    (∀ k s, (usbWriteThread fifoWidth).run newWriteThread (steps.take k) = some s → s.Sound fifoWidth) ↔
      (usbWriteThread fifoWidth).Each EndReached newWriteThread steps := by
  have hdvd : fifoWidth ∣ USB_TRANSFER_PACKET_SIZE_BYTES := by
    rcases hw with rfl | rfl <;> decide
  have hstart : newWriteThread.Holds fifoWidth := ⟨trivial, fun _ => rfl, List.prefix_rfl, Nat.le_refl 0⟩
  have htold : newWriteThread.Told := fun _ _ hsent => absurd rfl hsent
  refine Guarded.each_iff (P := fun s => s.Holds fifoWidth ∧ s.Told) ?_ ?_ ⟨hstart, htold⟩ (hstart.sound htold) hrun
  · rintro s i s' ⟨h, htold⟩ hend hstep
    obtain ⟨h', hiff⟩ := h.step hdvd htold hstep
    exact ⟨h', hiff.mpr hend⟩
  · rintro s i s' ⟨h, htold⟩ hstep
    obtain ⟨h', hiff⟩ := h.step hdvd htold hstep
    exact ⟨fun hsound => hiff.mp hsound.told, fun hend => h'.sound (hiff.mpr hend)⟩

/-- Three bytes, of which a word is sent as a short packet, and the next pass. -/
theorem usb_write_thread_sound_short :
    let steps : List WriteStep := [.write [1, 2, 3], .wake 3, .peek 3, .transfer .ok 2, .discard 3, .check 1, .wake 1]
    ∀ k s, (usbWriteThread 2).run newWriteThread (steps.take k) = some s → s.Sound 2 := by
  intro steps
  refine (usb_write_thread_sound (.inl rfl) (by decide)).mpr ?_
  simp [steps, Guarded.Each, EndReached]

/-- A full packet empties the buffer, and the packet of length zero fails. -/
theorem usb_write_thread_untold :
    let data : List UInt8 := List.replicate 1024 7
    let steps : List WriteStep :=
      [.write data, .wake 1024, .peek 1024, .transfer .ok 1024, .discard 1024, .check 0, .zeroLength .error]
    (usbWriteThread 2).run newWriteThread steps = some ⟨.waiting, [], data, data, some 1024⟩ ∧
      ¬WriteThread.Sound 2 ⟨.waiting, [], data, data, some 1024⟩ := by
  intro data steps
  refine ⟨by decide +kernel, fun h => ?_⟩
  obtain ⟨n, hn, hshort⟩ := h.told rfl rfl (by decide)
  cases hn
  exact absurd hshort (by decide)

end Glip.CypressFx3
