import Glip.CypressFx3.DeviceSelection
import Glip.Jtag.DiscoveredWidth

/-! The width of the FIFO of an open connection, for the two backends that divide by it. -/
namespace Glip
open CypressFx3 Jtag

/-- FX3: the width is that of the device exactly if the device was not selected manually. JTAG: it is that of the
connected target wherever it is used exactly if it is used after a discovery only. -/
theorem fifo_width_iff (opts : UsbOptions) (usbSteps : List UsbStep) (s : UsbSession)
    (hs : (usbSessions opts).run newUsbSession usbSteps = some s) (hopen : s.isOpen = true) (jtagSteps : List JtagStep)
    (hjtag : (jtagSessions.run newJtagSession jtagSteps).isSome) :
    (s.WidthKnown ↔ opts.usbDevBus = none) ∧
      (jtagSessions.Each JtagSession.WidthKnown newJtagSession jtagSteps ↔
        jtagSessions.Each JtagSession.UsedAfterDiscovery newJtagSession jtagSteps) :=
  ⟨(usbSessions_selected hs).widthKnown_iff hopen, jtag_width_iff hjtag⟩

def board : UsbDevice := ⟨1, 2, 0x04b4, 0x00f1, 4⟩

def opened : UsbResults := ⟨some [⟨board, true, fun _ => true⟩], true, true, true, true, true, true, true, true, true⟩

def automatic : UsbOptions := ⟨none, none, none, none⟩
def manual : UsbOptions := ⟨some 1, some 2, none, none⟩

def discoveredFirst : List JtagStep :=
  .gbOpen (some (2, true)) :: (scanSteps (some sixteenBits) ++ [.getFifoWidth, .calcPayload true])

theorem fifo_width_known : (⟨some board, 4, true⟩ : UsbSession).WidthKnown ∧
    jtagSessions.Each JtagSession.WidthKnown newJtagSession discoveredFirst := by
  have hrun : (usbSessions automatic).run newUsbSession [.gbOpen opened] = some ⟨some board, 4, true⟩ := by rfl
  have hjtag : (jtagSessions.run newJtagSession discoveredFirst).isSome := by rfl
  have hall : jtagSessions.Each JtagSession.UsedAfterDiscovery newJtagSession discoveredFirst := by decide
  obtain ⟨husb, hwidths⟩ := fifo_width_iff automatic [.gbOpen opened] _ hrun rfl discoveredFirst hjtag
  exact ⟨husb.mpr rfl, hwidths.mpr hall⟩

/-- The width is 0 with manual selection, before the discovery, and after one that failed, when it is divided by. -/
theorem fifo_width_zero :
    (∃ s, (usbSessions manual).run newUsbSession [.gbOpen opened] = some s ∧ s.isOpen = true ∧ s.getFifoWidth = 0) ∧
    (∃ s, jtagSessions.run newJtagSession [.gbOpen (some (2, true))] = some s ∧ ¬ s.WidthKnown .getFifoWidth) ∧
    ∃ s, jtagSessions.run newJtagSession (.gbOpen (some (2, true)) :: scanSteps none) = some s ∧
      s.calcPayload true = some { s with thread := .crashed } := by
  refine ⟨⟨_, rfl, rfl, rfl⟩, ⟨_, rfl, ?_⟩, _, rfl, rfl⟩
  intro h
  exact absurd rfl h.2

end Glip
