import Glip.Foundation.GuardedRun
import Mathlib.Tactic.SplitIfs

/-! How backend_cypressfx3.c selects its device, and what it takes for the width of the FIFO. -/
namespace Glip.CypressFx3
open Foundation

structure UsbDevEntry where
  vid : BitVec 16
  pid : BitVec 16
  deriving DecidableEq

/-- `usb_devs`, without its last element -/
def usbDevs : List UsbDevEntry := [⟨0x04b4, 0x00f1⟩]

structure UsbDevice where
  busNumber : BitVec 8
  deviceAddress : BitVec 8
  idVendor : BitVec 16
  idProduct : BitVec 16
  iSerialNumber : BitVec 8
  deriving DecidableEq

structure ListedDevice where
  device : UsbDevice
  descriptorRead : Bool
  opens : Nat → Bool

structure UsbOptions where
  usbDevBus : Option (BitVec 8)
  usbDevAddr : Option (BitVec 8)
  usbVid : Option (BitVec 16)
  usbPid : Option (BitVec 16)

/-- What the calls of `gb_cypressfx3_open` come to: the device list, `libusb_open`, and the steps after it. -/
structure UsbResults where
  devList : Option (List ListedDevice)
  opens : Bool
  setConfiguration : Bool
  claimInterface : Bool
  resetCom : Bool
  releaseCom : Bool
  writeBuf : Bool
  readBuf : Bool
  writeThread : Bool
  readThread : Bool

def UsbResults.goesOn (r : UsbResults) : Bool :=
  r.setConfiguration && r.claimInterface && r.resetCom && r.releaseCom && r.writeBuf && r.readBuf && r.writeThread &&
    r.readThread

structure UsbSession where
  usbDevHandle : Option UsbDevice
  fifoWidth : BitVec 8
  /-- from an open that returned 0 to its close -/
  isOpen : Bool

/-- `gb_cypressfx3_new` -/
def newUsbSession : UsbSession := ⟨none, 0, false⟩

namespace UsbOptions
variable (opts : UsbOptions)

def devSearchlist : List UsbDevEntry :=
  let devSearchlist : List UsbDevEntry :=
    match opts.usbVid, opts.usbPid with
    | some vid, some pid => [⟨vid, pid⟩]
    | _, _ => usbDevs
  devSearchlist.takeWhile (·.vid != 0)

def matchesDevice (d : ListedDevice) : Bool :=
  d.descriptorRead && opts.devSearchlist.zipIdx.any fun entry =>
    entry.1.vid == d.device.idVendor && entry.1.pid == d.device.idProduct && d.opens entry.2

def findManually (bus addr : BitVec 8) (devs : List ListedDevice) : Option UsbDevice :=
  (devs.find? fun d => d.device.busNumber = bus ∧ d.device.deviceAddress = addr).map (·.device)

/-- The automatic search: the device found so far and the width of the FIFO, over the rest of the list. It does not
go on if the assertion about the width fails. -/
def findAutomatically : Option UsbDevice × BitVec 8 → List ListedDevice → Option (Option UsbDevice × BitVec 8)
  | found, [] => some found
  | found, d :: devs =>
    if opts.matchesDevice d then
      if d.device.iSerialNumber ≠ 0 then findAutomatically (some d.device, d.device.iSerialNumber) devs else none
    else findAutomatically found devs

def find (fifoWidth : BitVec 8) (devs : List ListedDevice) : Option (Option UsbDevice × BitVec 8) :=
  match opts.usbDevBus, opts.usbDevAddr with
  | some bus, some addr => some (findManually bus addr devs, fifoWidth)
  | _, _ => opts.findAutomatically (none, fifoWidth) devs

end UsbOptions

def EINVAL : Int := 22

namespace UsbSession
variable (s : UsbSession) (opts : UsbOptions)

/-- The part of `gb_cypressfx3_open` from the end of the search on. -/
def openFound (r : UsbResults) : Option UsbDevice → UsbSession × Int
  | none => (s, -EINVAL)
  | some d =>
    if r.opens then
      let s := { s with usbDevHandle := some d }
      if r.goesOn then ({ s with isOpen := true }, 0) else (s, -1)
    else (s, -1)

def gbOpen (r : UsbResults) : Option (UsbSession × Int) :=
  if s.usbDevHandle.isSome then some (s, -1)
  else if opts.usbDevBus.isSome ≠ opts.usbDevAddr.isSome then some (s, -EINVAL)
  else if opts.usbDevBus = none ∧ opts.usbVid.isSome ≠ opts.usbPid.isSome then some (s, -EINVAL)
  else match r.devList with
    | none => some (s, -1)
    | some devs => (opts.find s.fifoWidth devs).map fun found => { s with fifoWidth := found.2 }.openFound r found.1

def gbClose : Option UsbSession :=
  if s.usbDevHandle = none then some s
  else if s.isOpen then some { s with usbDevHandle := none, isOpen := false }
  else none

def getFifoWidth : Nat := s.fifoWidth.toNat

end UsbSession

inductive UsbStep
  | gbOpen (r : UsbResults)
  | gbClose

def usbSessions (opts : UsbOptions) : Guarded UsbSession UsbStep where
  step s
    | .gbOpen r => (s.gbOpen opts r).map Prod.fst
    | .gbClose => s.gbClose

def UsbSession.WidthKnown (s : UsbSession) : Prop :=
  ∃ d, s.usbDevHandle = some d ∧ s.getFifoWidth = d.iSerialNumber.toNat ∧ s.getFifoWidth ≠ 0

def Found (found : Option UsbDevice × BitVec 8) : Prop :=
  ∀ d, found.1 = some d → found.2 = d.iSerialNumber ∧ d.iSerialNumber ≠ 0

theorem found_none (w : BitVec 8) : Found (none, w) := nofun

theorem UsbOptions.findAutomatically_found {opts : UsbOptions} {devs : List ListedDevice}
    {found found' : Option UsbDevice × BitVec 8} (hfound : Found found)
    (h : opts.findAutomatically found devs = some found') : Found found' := by
  induction devs generalizing found with
  | nil =>
    cases h
    exact hfound
  | cons d devs ih =>
    rw [findAutomatically] at h
    split_ifs at h with hmatches hserial
    · apply ih _ h
      rintro d' hd'
      cases hd'
      exact ⟨rfl, hserial⟩
    · exact ih hfound h

/-- Manual selection never stores a width, and without it the width is that of the device. -/
structure UsbSession.Selected (opts : UsbOptions) (s : UsbSession) : Prop where
  manually : opts.usbDevBus ≠ none → s.fifoWidth = 0
  automatically : opts.usbDevBus = none → Found (s.usbDevHandle, s.fifoWidth)
  handle : s.isOpen = true → s.usbDevHandle ≠ none

section Steps
variable {opts : UsbOptions} {s s' : UsbSession}

/-- What the search finds: nothing new about the width with manual selection. -/
theorem UsbOptions.find_cases (hboth : opts.usbDevBus.isSome = opts.usbDevAddr.isSome) {devs : List ListedDevice}
    {w : BitVec 8} {found : Option UsbDevice × BitVec 8} (h : opts.find w devs = some found) :
    (opts.usbDevBus ≠ none → found.2 = w) ∧ (opts.usbDevBus = none → Found found) := by
  cases hbus : opts.usbDevBus with
  | none =>
    rw [find, hbus] at h
    exact ⟨fun hsome => absurd rfl hsome, fun _ => findAutomatically_found (found_none w) h⟩
  | some bus =>
    rw [hbus] at hboth
    obtain ⟨addr, haddr⟩ := Option.isSome_iff_exists.mp hboth.symm
    rw [find, hbus, haddr] at h
    cases h
    exact ⟨fun _ => rfl, nofun⟩

theorem UsbSession.Selected.openFound (h : s.Selected opts) (hhandle : s.usbDevHandle = none) (r : UsbResults)
    {found : Option UsbDevice × BitVec 8} (hmanually : opts.usbDevBus ≠ none → found.2 = s.fifoWidth)
    (hauto : opts.usbDevBus = none → Found found) : ({ s with fifoWidth := found.2 }.openFound r found.1).1.Selected opts := by
  have hclosed : s.isOpen = true → False := fun hopen => h.handle hopen hhandle
  have hzero (hbus : opts.usbDevBus ≠ none) : found.2 = 0 := (hmanually hbus).trans (h.manually hbus)
  obtain ⟨d, w⟩ := found
  cases d with
  | none =>
    refine ⟨hzero, fun _ d hd => ?_, fun hopen => (hclosed hopen).elim⟩
    exact absurd (hhandle.symm.trans hd) nofun
  | some d =>
    rw [UsbSession.openFound]
    split_ifs with hopens hgoes
    · exact ⟨hzero, hauto, fun _ => Option.some_ne_none d⟩
    · exact ⟨hzero, hauto, fun _ => Option.some_ne_none d⟩
    · refine ⟨hzero, fun _ d hd => ?_, fun hopen => (hclosed hopen).elim⟩
      exact absurd (hhandle.symm.trans hd) nofun

theorem UsbSession.Selected.gbOpen (h : s.Selected opts) {r : UsbResults} {res : UsbSession × Int}
    (hopen : s.gbOpen opts r = some res) : res.1.Selected opts := by
  rw [UsbSession.gbOpen] at hopen
  split_ifs at hopen with hconnected hboth hids
  · cases hopen
    exact h
  · cases hopen
    exact h
  · cases hopen
    exact h
  · have hhandle : s.usbDevHandle = none := Option.not_isSome_iff_eq_none.mp hconnected
    cases hlist : r.devList with
    | none =>
      rw [hlist] at hopen
      cases hopen
      exact h
    | some devs =>
      rw [hlist] at hopen
      obtain ⟨found, hfind, hres⟩ := Option.map_eq_some_iff.mp hopen
      obtain ⟨hmanually, hauto⟩ := UsbOptions.find_cases (not_ne_iff.mp hboth) hfind
      cases hres
      exact h.openFound hhandle r hmanually hauto

theorem UsbSession.Selected.step (h : s.Selected opts) {i : UsbStep} (hstep : (usbSessions opts).step s i = some s') :
    s'.Selected opts := by
  cases i with
  | gbOpen r =>
    obtain ⟨res, hopen, hres⟩ := Option.map_eq_some_iff.mp hstep
    cases hres
    exact h.gbOpen hopen
  | gbClose =>
    have hclose : s.gbClose = some s' := hstep
    rw [UsbSession.gbClose] at hclose
    split_ifs at hclose with hnone hopen
    · cases hclose
      exact h
    · cases hclose
      exact ⟨h.manually, fun _ => found_none s.fifoWidth, Bool.noConfusion⟩

end Steps

theorem newUsbSession_selected (opts : UsbOptions) : newUsbSession.Selected opts :=
  ⟨fun _ => rfl, fun _ => found_none 0, Bool.noConfusion⟩

theorem usbSessions_selected {opts : UsbOptions} {steps : List UsbStep} {s : UsbSession}
    (hrun : (usbSessions opts).run newUsbSession steps = some s) : s.Selected opts :=
  Guarded.run_invariant (fun _ _ _ h hstep => h.step hstep) (newUsbSession_selected opts) hrun

/-- The width of an open connection is that of its device exactly if the device was not selected manually. -/
theorem UsbSession.Selected.widthKnown_iff {opts : UsbOptions} {s : UsbSession} (h : s.Selected opts)
    (hopen : s.isOpen = true) : s.WidthKnown ↔ opts.usbDevBus = none := by
  constructor
  · rintro ⟨d, -, -, hne⟩
    by_contra hbus
    apply hne
    rw [getFifoWidth, h.manually hbus]
    rfl
  · intro hbus
    obtain ⟨d, hd⟩ := Option.ne_none_iff_exists'.mp (h.handle hopen)
    obtain ⟨hw, hne⟩ := h.automatically hbus d hd
    have hwidth : s.fifoWidth = d.iSerialNumber := hw
    refine ⟨d, hd, congrArg BitVec.toNat hwidth, ?_⟩
    rw [getFifoWidth, hwidth]
    exact fun hzero => hne (BitVec.eq_of_toNat_eq hzero)

end Glip.CypressFx3
