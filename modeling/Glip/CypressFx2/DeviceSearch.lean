import Glip.Foundation.Strncmp
import Mathlib.Tactic.SplitIfs

/-! How backend_cypressfx2.c looks for its device. -/
namespace Glip.CypressFx2
open Foundation

structure UsbDevEntry where
  vid : BitVec 16
  pid : BitVec 16
  manufacturer : Option ZString
  product : Option ZString

/-- The only element of `usb_devs` in front of its last one. The names are TUM LIS and GLIP. -/
def usbDev : UsbDevEntry :=
  ⟨0x221a, 0x0100, some ⟨[84, 85, 77, 32, 76, 73, 83], by decide⟩, some ⟨[71, 76, 73, 80], by decide⟩⟩

/-- A string that libusb stores, terminated, in an array of 256 characters. It returns the length. -/
structure DescriptorString extends ZString where
  fits : chars.length < 256

structure ListedDevice where
  busNumber : BitVec 8
  deviceAddress : BitVec 8
  idVendor : BitVec 16
  idProduct : BitVec 16
  descriptorRead : Bool
  opens : Bool
  manufacturer : Option DescriptorString
  product : Option DescriptorString

structure UsbOptions where
  usbDevBus : Option (BitVec 8)
  usbDevAddr : Option (BitVec 8)
  usbVid : Option (BitVec 16)
  usbPid : Option (BitVec 16)
  usbManufacturer : Option ZString
  usbProduct : Option ZString

structure UsbResults where
  devList : Option (List ListedDevice)
  opens : Bool
  starts : Bool

structure Search where
  opened : Nat
  closed : Nat
  foundDev : Option ListedDevice

def newSearch : Search := ⟨0, 0, none⟩

inductive NameCheck where
  | unread
  | differs
  | same

/-- The check of a name, if the filter has one. It compares as many characters as `n` says. -/
def checkName (wanted : Option ZString) (read : Option DescriptorString) (n : DescriptorString → Nat) : NameCheck :=
  match wanted with
  | none => .same
  | some name => match read with
    | none => .unread
    | some str => if strncmp str.toZString name (n str) ≠ 0 then .differs else .same

def searchEntries (d : ListedDevice) : List UsbDevEntry → Search → Search × Bool
  | [], s => (s, false)
  | e :: es, s =>
    if e.vid ≠ d.idVendor ∨ e.pid ≠ d.idProduct then searchEntries d es s
    else if ¬d.opens then searchEntries d es s
    else
      let s := { s with opened := s.opened + 1 }
      let closing := { s with closed := s.closed + 1 }
      -- the handle stays open where a name cannot be read
      match checkName e.manufacturer d.manufacturer fun _ => 256 with
      | .unread => searchEntries d es s
      | .differs => searchEntries d es closing
      | .same => match checkName e.product d.product fun str => str.chars.length with
        | .unread => searchEntries d es s
        | .differs => searchEntries d es closing
        | .same => (closing, true)

def searchDevices (es : List UsbDevEntry) : List ListedDevice → Search → Search
  | [], s => s
  | d :: ds, s =>
    if ¬d.descriptorRead then searchDevices es ds s
    else
      let r := searchEntries d es s
      searchDevices es ds (if r.2 then { r.1 with foundDev := some d } else r.1)

namespace UsbOptions
variable (opts : UsbOptions)

def filter : UsbDevEntry :=
  match opts.usbVid, opts.usbPid with
  | some vid, some pid => ⟨vid, pid, opts.usbManufacturer, opts.usbProduct⟩
  | _, _ => usbDev

/-- A vendor id of 0 ends the list. -/
def devSearchlist : List UsbDevEntry := [opts.filter].takeWhile (·.vid != 0)

def search (devs : List ListedDevice) : Search :=
  match opts.usbDevBus, opts.usbDevAddr with
  | some bus, some addr =>
    { newSearch with foundDev := devs.find? fun d => d.busNumber = bus ∧ d.deviceAddress = addr }
  | _, _ => searchDevices opts.devSearchlist devs newSearch

end UsbOptions

def EINVAL : Int := 22

structure UsbOpen where
  rv : Int
  usbDevHandle : Option ListedDevice
  search : Search

def gbOpen (usbDevHandle : Option ListedDevice) (opts : UsbOptions) (r : UsbResults) : UsbOpen :=
  if usbDevHandle.isSome then ⟨-1, usbDevHandle, newSearch⟩
  else if opts.usbDevBus.isSome ≠ opts.usbDevAddr.isSome then ⟨-EINVAL, none, newSearch⟩
  else if opts.usbDevBus = none ∧ opts.usbVid.isSome ≠ opts.usbPid.isSome then ⟨-EINVAL, none, newSearch⟩
  else match r.devList with
    | none => ⟨-1, none, newSearch⟩
    | some devs =>
      let s := opts.search devs
      match s.foundDev with
      | none => ⟨-EINVAL, none, s⟩
      | some d => if r.opens then ⟨if r.starts then 0 else -1, some d, s⟩ else ⟨-1, none, s⟩

structure Candidate (e : UsbDevEntry) (d : ListedDevice) : Prop where
  descriptorRead : d.descriptorRead
  ids : e.vid = d.idVendor ∧ e.pid = d.idProduct
  opens : d.opens

def HasName (same : ZString → ZString → Prop) (wanted : Option ZString) (read : Option DescriptorString) : Prop :=
  ∀ name, wanted = some name → ∃ str, read = some str ∧ same str.toZString name

def Unnamed (wanted : Option ZString) (read : Option DescriptorString) : Prop := wanted ≠ none ∧ read = none

structure Matches (e : UsbDevEntry) (d : ListedDevice) : Prop extends Candidate e d where
  manufacturer : HasName Eq e.manufacturer d.manufacturer
  product : HasName Eq e.product d.product

/-- A device like that, but for the product, of which the filter's string need only have it at its beginning. -/
structure BeginsLike (e : UsbDevEntry) (d : ListedDevice) : Prop extends Candidate e d where
  manufacturer : HasName Eq e.manufacturer d.manufacturer
  product : HasName (fun str name => str.chars <+: name.chars) e.product d.product

/-- A device of which the search cannot read a name. -/
def Leaks (e : UsbDevEntry) (d : ListedDevice) : Prop :=
  Candidate e d ∧ (Unnamed e.manufacturer d.manufacturer ∨
    HasName Eq e.manufacturer d.manufacturer ∧ Unnamed e.product d.product)

/-- Only a device that the filter asks for is opened, one is found if there is one, and every handle that the
search opens is closed again. -/
structure SelectsProperly (opts : UsbOptions) (devs : List ListedDevice) (o : UsbOpen) : Prop where
  only : ∀ d, o.usbDevHandle = some d → d ∈ devs ∧ Matches opts.filter d
  finds : (∃ d ∈ devs, Matches opts.filter d) → o.search.foundDev ≠ none
  closes : o.search.closed = o.search.opened

/-- No name stays unread, and the last device that is like the filter up to the end of its product name is what
the filter asks for, unless it cannot be opened again. A filter with the vendor id 0 asks for no device that is there. -/
def Selectable (opts : UsbOptions) (devs : List ListedDevice) (opens : Bool) : Prop :=
  if opts.filter.vid = 0 then ∀ d ∈ devs, ¬Matches opts.filter d
  else (∀ d ∈ devs, ¬Leaks opts.filter d) ∧
    ∀ pre d post, devs = pre ++ d :: post → BeginsLike opts.filter d → (∀ d' ∈ post, ¬BeginsLike opts.filter d') →
      opens → Matches opts.filter d

inductive NameChecked (same : ZString → ZString → Prop) (wanted : Option ZString) (read : Option DescriptorString) :
    NameCheck → Prop
  | unread : Unnamed wanted read → ¬HasName same wanted read → NameChecked same wanted read .unread
  | differs : ¬Unnamed wanted read → ¬HasName same wanted read → NameChecked same wanted read .differs
  | same : ¬Unnamed wanted read → HasName same wanted read → NameChecked same wanted read .same

/-- What the check says for a length `n` up to which two strings are compared as in `same`. -/
theorem checkName_checked (same : ZString → ZString → Prop) (wanted : Option ZString) (read : Option DescriptorString)
    (n : DescriptorString → Nat)
    (hn : ∀ (str : DescriptorString) name, strncmp str.toZString name (n str) = 0 ↔ same str.toZString name) :
    NameChecked same wanted read (checkName wanted read n) := by
  unfold checkName
  cases wanted with
  | none => exact .same (fun h => h.1 rfl) nofun
  | some name => cases read with
    | none =>
      refine .unread ⟨Option.some_ne_none name, rfl⟩ fun h => ?_
      obtain ⟨str, hstr, -⟩ := h name rfl
      cases hstr
    | some str =>
      have hread : ¬Unnamed (some name) (some str) := fun h => Option.some_ne_none str h.2
      dsimp only
      split
      · rename_i hne
        refine .differs hread fun h => ?_
        obtain ⟨str', hstr, hsame⟩ := h name rfl
        obtain rfl := Option.some.inj hstr
        exact hne ((hn str name).mpr hsame)
      · rename_i heq
        refine .same hread ?_
        rintro _ ⟨⟩
        exact ⟨str, rfl, (hn str name).mp (not_not.mp heq)⟩

/-- All characters fit in the array, so that the manufacturer is compared to its end. -/
theorem manufacturer_checked (wanted : Option ZString) (read : Option DescriptorString) :
    NameChecked Eq wanted read (checkName wanted read fun _ => 256) :=
  checkName_checked Eq wanted read _ fun str _ => strncmp_eq_zero_of_lt str.fits

theorem product_checked (wanted : Option ZString) (read : Option DescriptorString) :
    NameChecked (fun str name => str.chars <+: name.chars) wanted read
      (checkName wanted read fun str => str.chars.length) :=
  checkName_checked _ wanted read _ fun str name => strncmp_length_eq_zero str.toZString name

structure Search.Goes (s t : Search) (leaks : Prop) : Prop where
  le : t.closed + s.opened ≤ t.opened + s.closed
  eq_iff : t.closed + s.opened = t.opened + s.closed ↔ ¬leaks

section Search
variable {e : UsbDevEntry} {d : ListedDevice} {devs : List ListedDevice} {s t u : Search} {p q : Prop}

theorem Search.Goes.refl (hp : ¬p) (f : Option ListedDevice) : s.Goes { s with foundDev := f } p :=
  ⟨by dsimp only; omega, iff_of_true (by dsimp only; omega) hp⟩

theorem Search.Goes.trans (h : s.Goes t p) (h' : t.Goes u q) : s.Goes u (p ∨ q) := by
  obtain ⟨hle, hiff⟩ := h
  obtain ⟨hle', hiff'⟩ := h'
  refine ⟨by omega, ?_⟩
  rw [not_or, ← hiff, ← hiff']
  omega

/-- One device against one filter. -/
theorem searchEntries_spec (hread : d.descriptorRead) (s : Search) :
    s.Goes (searchEntries d [e] s).1 (Leaks e d) ∧ (searchEntries d [e] s).1.foundDev = s.foundDev ∧
      ((searchEntries d [e] s).2 ↔ BeginsLike e d) := by
  have hmanufacturer := manufacturer_checked e.manufacturer d.manufacturer
  have hproduct := product_checked e.product d.product
  simp only [searchEntries]
  split_ifs with hids hopens
  · have hno : ¬Candidate e d := fun h => hids.elim (fun hv => hv h.ids.1) fun hp => hp h.ids.2
    exact ⟨.refl (fun h => hno h.1) s.foundDev, rfl, iff_of_false id fun h => hno h.toCandidate⟩
  · have hcand : Candidate e d := ⟨hread, (not_or.mp hids).imp not_ne_iff.mp not_ne_iff.mp, by assumption⟩
    generalize checkName e.manufacturer d.manufacturer (fun _ => 256) = m at hmanufacturer ⊢
    generalize checkName e.product d.product (fun str => str.chars.length) = p at hproduct ⊢
    cases hmanufacturer with
    | unread hnone hno =>
      refine ⟨⟨by dsimp only; omega, iff_of_false (by dsimp only; omega) (not_not.mpr ⟨hcand, .inl hnone⟩)⟩, rfl, ?_⟩
      exact iff_of_false Bool.noConfusion fun h => hno h.manufacturer
    | differs hsome hno =>
      have hleaks : ¬Leaks e d := fun h => h.2.elim hsome fun h => hno h.1
      refine ⟨⟨by dsimp only; omega, iff_of_true (by dsimp only; omega) hleaks⟩, rfl, ?_⟩
      exact iff_of_false Bool.noConfusion fun h => hno h.manufacturer
    | same hsome hname => cases hproduct with
      | unread hnone hno =>
        have hleaks : Leaks e d := ⟨hcand, .inr ⟨hname, hnone⟩⟩
        refine ⟨⟨by dsimp only; omega, iff_of_false (by dsimp only; omega) (not_not.mpr hleaks)⟩, rfl, ?_⟩
        exact iff_of_false Bool.noConfusion fun h => hno h.product
      | differs hsome' hno =>
        have hleaks : ¬Leaks e d := fun h => h.2.elim hsome fun h => hsome' h.2
        refine ⟨⟨by dsimp only; omega, iff_of_true (by dsimp only; omega) hleaks⟩, rfl, ?_⟩
        exact iff_of_false Bool.noConfusion fun h => hno h.product
      | same hsome' hname' =>
        have hleaks : ¬Leaks e d := fun h => h.2.elim hsome fun h => hsome' h.2
        refine ⟨⟨by dsimp only; omega, iff_of_true (by dsimp only; omega) hleaks⟩, rfl, ?_⟩
        exact iff_of_true rfl ⟨hcand, hname, hname'⟩
  · have hno : ¬Candidate e d := fun h => hopens h.opens
    exact ⟨.refl (fun h => hno h.1) s.foundDev, rfl, iff_of_false id fun h => hno h.toCandidate⟩

def FindsLast (e : UsbDevEntry) (devs : List ListedDevice) (s t : Search) : Prop :=
  (t.foundDev = s.foundDev ∧ ∀ d ∈ devs, ¬BeginsLike e d) ∨
    ∃ pre d post, devs = pre ++ d :: post ∧ BeginsLike e d ∧ (∀ d' ∈ post, ¬BeginsLike e d') ∧ t.foundDev = some d

theorem FindsLast.cons (hfound : BeginsLike e d ∧ t.foundDev = some d ∨ ¬BeginsLike e d ∧ t.foundDev = s.foundDev)
    (h : FindsLast e devs t u) : FindsLast e (d :: devs) s u := by
  rcases h with ⟨hlast, hnone⟩ | ⟨pre, d', post, rfl, hlike, hpost, hlast⟩
  · rcases hfound with ⟨hlike, ht⟩ | ⟨hno, ht⟩
    · exact .inr ⟨[], d, devs, rfl, hlike, hnone, hlast.trans ht⟩
    · exact .inl ⟨hlast.trans ht, List.forall_mem_cons.mpr ⟨hno, hnone⟩⟩
  · exact .inr ⟨d :: pre, d', post, rfl, hlike, hpost, hlast⟩

theorem Search.Goes.congr (h : s.Goes t p) (hpq : p ↔ q) : s.Goes t q := ⟨h.le, h.eq_iff.trans (not_congr hpq)⟩

theorem searchDevices_spec (e : UsbDevEntry) (devs : List ListedDevice) (s : Search) :
    s.Goes (searchDevices [e] devs s) (∃ d ∈ devs, Leaks e d) ∧ FindsLast e devs s (searchDevices [e] devs s) := by
  induction devs generalizing s with
  | nil => exact ⟨.refl (by simp) s.foundDev, .inl ⟨rfl, nofun⟩⟩
  | cons d devs ih =>
    rw [searchDevices]
    by_cases hread : d.descriptorRead
    · obtain ⟨hgoes, hsame, hlike⟩ := searchEntries_spec (e := e) hread s
      rw [if_neg (not_not.mpr hread)]
      dsimp only
      generalize searchEntries d [e] s = r at hgoes hsame hlike ⊢
      have hmoved : s.Goes (if r.2 then { r.1 with foundDev := some d } else r.1) (Leaks e d) := by
        split
        · exact ⟨hgoes.le, hgoes.eq_iff⟩
        · exact hgoes
      obtain ⟨hrest, hlast⟩ := ih (if r.2 then { r.1 with foundDev := some d } else r.1)
      refine ⟨(hmoved.trans hrest).congr (by simp), hlast.cons ?_⟩
      by_cases hr : r.2
      · exact .inl ⟨hlike.mp hr, by rw [if_pos hr]⟩
      · exact .inr ⟨mt hlike.mpr hr, by rw [if_neg hr, hsame]⟩
    · rw [if_pos hread]
      obtain ⟨hgoes, hlast⟩ := ih s
      have hno : ¬Candidate e d := fun h => hread h.descriptorRead
      refine ⟨hgoes.congr ?_, hlast.cons (.inr ⟨fun h => hno h.toCandidate, rfl⟩)⟩
      simp [Leaks, hno]

/-- An empty search list finds nothing. -/
theorem searchDevices_nil (devs : List ListedDevice) (s : Search) : searchDevices [] devs s = s := by
  induction devs with
  | nil => rfl
  | cons d devs ih =>
    rw [searchDevices]
    split_ifs
    · exact ih
    · exact ih

theorem Matches.beginsLike (h : Matches e d) : BeginsLike e d :=
  ⟨h.toCandidate, h.manufacturer, fun name hname =>
    have ⟨str, hstr, heq⟩ := h.product name hname
    ⟨str, hstr, heq ▸ List.prefix_rfl⟩⟩

/-- There is only one last device. -/
theorem FindsLast.eq {pre post : List ListedDevice} (h : FindsLast e (pre ++ d :: post) s t) (hlike : BeginsLike e d)
    (hpost : ∀ d' ∈ post, ¬BeginsLike e d') : t.foundDev = some d := by
  rcases h with ⟨-, hnone⟩ | ⟨pre', d', post', heq, hlike', hpost', hlast⟩
  · exact absurd hlike (hnone d (by simp))
  · rcases List.append_eq_append_iff.mp heq with ⟨mid, -, hmid⟩ | ⟨mid, -, hmid⟩
    · cases mid with
      | nil =>
        obtain ⟨rfl, -⟩ := List.cons.inj hmid
        exact hlast
      | cons x mid =>
        obtain ⟨-, rfl⟩ := List.cons.inj hmid
        exact absurd hlike' (hpost d' (by simp))
    · cases mid with
      | nil =>
        obtain ⟨rfl, -⟩ := List.cons.inj hmid
        exact hlast
      | cons x mid =>
        obtain ⟨-, rfl⟩ := List.cons.inj hmid
        exact absurd hlike (hpost' d (by simp))

end Search

section Open
variable (opts : UsbOptions) (devs : List ListedDevice) (opens starts : Bool)
  (hauto : opts.usbDevBus = none ∧ opts.usbDevAddr = none) (hids : opts.usbVid.isSome = opts.usbPid.isSome)
include hauto hids

/-- The automatic search of an open, and the device that it opens in the end. -/
theorem gbOpen_auto :
    (gbOpen none opts ⟨some devs, opens, starts⟩).search = searchDevices opts.devSearchlist devs newSearch ∧
      (gbOpen none opts ⟨some devs, opens, starts⟩).usbDevHandle =
        if opens then (searchDevices opts.devSearchlist devs newSearch).foundDev else none := by
  have hsearch : opts.search devs = searchDevices opts.devSearchlist devs newSearch := by
    rw [UsbOptions.search, hauto.1]
  simp only [gbOpen, hauto.1, hauto.2, hids, hsearch]
  cases hfound : (searchDevices opts.devSearchlist devs newSearch).foundDev with
  | none => simp
  | some d => cases opens <;> simp

/-- The open selects its device properly exactly if the devices allow it. -/
theorem selects_properly_iff :
    SelectsProperly opts devs (gbOpen none opts ⟨some devs, opens, starts⟩) ↔ Selectable opts devs opens := by
  obtain ⟨hsearch, hhandle⟩ := gbOpen_auto opts devs opens starts hauto hids
  generalize gbOpen none opts ⟨some devs, opens, starts⟩ = o at hsearch hhandle ⊢
  unfold Selectable
  split
  · rename_i hvid
    have hlist : opts.devSearchlist = [] := by simp [UsbOptions.devSearchlist, hvid]
    rw [hlist, searchDevices_nil] at hsearch hhandle
    have hnone : o.usbDevHandle = none := by simpa [newSearch] using hhandle
    constructor
    · exact fun h d hd hmatch => h.finds ⟨d, hd, hmatch⟩ (by rw [hsearch]; rfl)
    · intro h
      refine ⟨fun d hd => ?_, fun ⟨d, hd, hmatch⟩ => absurd hmatch (h d hd), by rw [hsearch]; rfl⟩
      rw [hnone] at hd
      cases hd
  · rename_i hvid
    have hlist : opts.devSearchlist = [opts.filter] :=
      List.takeWhile_cons_of_pos (bne_iff_ne.mpr hvid)
    obtain ⟨hgoes, hlast⟩ := searchDevices_spec opts.filter devs newSearch
    rw [hlist] at hsearch hhandle
    rw [← hsearch] at hgoes hlast hhandle
    have hcloses : o.search.closed = o.search.opened ↔ ¬∃ d ∈ devs, Leaks opts.filter d := hgoes.eq_iff
    constructor
    · intro h
      refine ⟨fun d hd hleaks => hcloses.mp h.closes ⟨d, hd, hleaks⟩, ?_⟩
      rintro pre d post rfl hlike hpost rfl
      exact (h.only d (by rw [hhandle, if_pos rfl, hlast.eq hlike hpost])).2
    · rintro ⟨hleaks, hselect⟩
      refine ⟨fun d hd => ?_, fun ⟨d, hd, hmatch⟩ hnone => ?_, hcloses.mpr fun ⟨d, hd, h⟩ => hleaks d hd h⟩
      · rw [hhandle] at hd
        split_ifs at hd with hopens
        rcases hlast with ⟨hsame, -⟩ | ⟨pre, d', post, hdevs, hlike, hpost, hfound⟩
        · rw [hsame] at hd
          cases hd
        · obtain rfl := Option.some.inj (hfound.symm.trans hd)
          exact ⟨by simp [hdevs], hselect pre d' post hdevs hlike hpost hopens⟩
      · rcases hlast with ⟨-, hno⟩ | ⟨pre, d', post, -, -, -, hfound⟩
        · exact hno d hd hmatch.beginsLike
        · rw [hfound] at hnone
          cases hnone

end Open

def glipDevice (manufacturer product : Option DescriptorString) : ListedDevice :=
  ⟨1, 4, 0x221a, 0x0100, true, true, manufacturer, product⟩

def tumLis : DescriptorString := ⟨⟨[84, 85, 77, 32, 76, 73, 83], by decide⟩, by decide⟩

def noOptions : UsbOptions := ⟨none, none, none, none, none, none⟩

theorem selects_properly_iff_builtin :
    let devs := [glipDevice (some tumLis) (some ⟨⟨[71, 76, 73, 80], by decide⟩, by decide⟩)]
    SelectsProperly noOptions devs (gbOpen none noOptions ⟨some devs, true, true⟩) := by
  intro devs
  refine (selects_properly_iff noOptions devs true true ⟨rfl, rfl⟩ rfl).mpr ⟨fun d hd hleaks => ?_, ?_⟩
  · obtain rfl := List.mem_singleton.mp hd
    rcases hleaks.2 with ⟨-, hnone⟩ | ⟨-, -, hnone⟩ <;> cases hnone
  · intro pre d post heq hlike _ _
    have hd : d ∈ devs := by simp [heq]
    obtain rfl := List.mem_singleton.mp hd
    refine ⟨hlike.toCandidate, hlike.manufacturer, ?_⟩
    rintro _ ⟨⟩
    exact ⟨_, rfl, rfl⟩

/-- A device whose product name is GL is opened, though the filter's is GLIP. A device that does not return its
manufacturer stays open. -/
theorem selects_properly_fails :
    let begins := [glipDevice (some tumLis) (some ⟨⟨[71, 76], by decide⟩, by decide⟩)]
    let unread := [glipDevice none none]
    ¬SelectsProperly noOptions begins (gbOpen none noOptions ⟨some begins, true, true⟩) ∧
      ¬SelectsProperly noOptions unread (gbOpen none noOptions ⟨some unread, true, true⟩) := by
  intro begins unread
  constructor
  · intro h
    obtain ⟨str, hstr, heq⟩ := (h.only (glipDevice (some tumLis) (some ⟨⟨[71, 76], by decide⟩, by decide⟩)) rfl).2.product
      _ rfl
    obtain rfl := Option.some.inj hstr
    exact absurd heq (by decide)
  · intro h
    exact absurd h.closes (by decide)

end Glip.CypressFx2
