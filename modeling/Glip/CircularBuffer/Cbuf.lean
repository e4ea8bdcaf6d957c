import Glip.Foundation.AtomicProgram
import Glip.Foundation.MachineInteger
import Glip.Foundation.MemoryBlock

/-! The circular buffer of cbuf.c. Its functions are programs over the buffer
structure in which every load of `wr_ptr` or `rd_ptr`, every `memcpy` and every
update of a pointer under the lock is a step of its own. -/
namespace Glip.CircularBuffer
open Foundation

/-- `struct cbuf`. Its `size` never changes after `cbuf_init` and is a parameter
of the functions; `none` is the null pointer. -/
structure Cbuf where
  wrPtr : Nat
  rdPtr : Nat
  data : Block
  hintMaxReadSize : Nat
  readDataTmpSize : Nat
  readDataTmp : Option Block
  hintMaxWriteSize : Nat
  writeDataTmpSize : Nat
  writeDataTmp : Option Block

/-- Return codes: `0`, `-EINVAL` and `-ENOMEM`. -/
inductive Rc where
  | ok
  | einval
  | enomem
  deriving DecidableEq

inductive Ptr where
  | data (off : Nat)
  | writeDataTmp
  | readDataTmp
  | null
  deriving DecidableEq

/-- What `realloc` does if it is called: it fails, or the bytes it adds hold some junk. -/
abbrev Alloc := Option (Nat → UInt8)

def loadWr : Prog Cbuf Nat := .atomic fun s => some (s.wrPtr, s)
def loadRd : Prog Cbuf Nat := .atomic fun s => some (s.rdPtr, s)

def storeData (off : Nat) (bs : List UInt8) : Prog Cbuf Unit := .atomic fun s =>
  (s.data.store off bs).map fun d => ((), { s with data := d })

def loadData (off n : Nat) : Prog Cbuf (List UInt8) := .atomic fun s =>
  (s.data.load off n).map (·, s)

def loadWriteTmp (off n : Nat) : Prog Cbuf (List UInt8) := .atomic fun s =>
  (s.writeDataTmp.bind (·.load off n)).map (·, s)

def copyToReadTmp (dst off n : Nat) : Prog Cbuf Unit := .atomic fun s => do
  let bs ← s.data.load off n
  let tmp ← s.readDataTmp
  let tmp ← tmp.store dst bs
  pure ((), { s with readDataTmp := some tmp })

def sliceOf (bs : List UInt8) (off n : Nat) : Prog Cbuf (List UInt8) :=
  if off + n ≤ bs.length then pure ((bs.drop off).take n) else .fault

section
variable (size : Nat)

def newCbuf : Cbuf := ⟨0, 0, .calloc size, 0, 0, none, 0, 0, none⟩

/-- `cbuf_init` when memory can be allocated; it asserts that the size is a power of two. -/
def cbufInit : Option Cbuf :=
  if size ≠ 0 ∧ size &&& sizeSub size 1 = 0 then some (newCbuf size) else none

def setHintMaxReadSize (hint : Nat) : Prog Cbuf Unit := .atomic fun s =>
  some ((), { s with hintMaxReadSize := hint })

def setHintMaxWriteSize (hint : Nat) : Prog Cbuf Unit := .atomic fun s =>
  some ((), { s with hintMaxWriteSize := hint })

def ptrAdd (val1 val2 : Nat) : Nat := sizeAdd val1 val2 &&& sizeSub (sizeMul 2 size) 1

def index (ptr : Nat) : Nat := ptr &&& sizeSub size 1

/-- The loop of `_cbuf_calc_bufsize`. -/
def log2Size (sizeTmp : Nat) : Nat :=
  if sizeTmp >>> 1 = 0 then 0 else log2Size (sizeTmp >>> 1) + 1
termination_by sizeTmp
decreasing_by simp only [Nat.shiftRight_one] at *; omega

/-- `_cbuf_calc_bufsize`: the power of two is computed in an `int`. -/
def calcBufsize (sizeReq sizeMax : Nat) : Nat :=
  -- `1 << n` is undefined for `n` from 32 on; here nothing is left of it then
  let powTwo := unsignedOf 64 (signedOf 32 (2 ^ (log2Size sizeReq + 1)))
  if powTwo > sizeMax then sizeMax else powTwo

def isEmpty : Prog Cbuf Bool := do
  let wr ← loadWr
  let rd ← loadRd
  pure (wr == rd)

def isFull : Prog Cbuf Bool := do
  let wr ← loadWr
  let rd ← loadRd
  pure (wr == rd ^^^ size)

/-- The subtraction of `cbuf_fill_level`, with its `ssize_t` intermediate. -/
def levelOf (wr rd : Nat) : Nat :=
  let fill := signedOf 64 (sizeSub (index size wr) (index size rd))
  unsignedOf 64 (if fill < 0 then signedOf 64 (unsignedOf 64 (fill + size)) else fill)

def fillLevel : Prog Cbuf Nat := do
  if ← isFull size then pure size else
  let wr ← loadWr
  let rd ← loadRd
  pure (levelOf size wr rd)

def freeLevel : Prog Cbuf Nat := do
  let fill ← fillLevel size
  pure (sizeSub size fill)

def advanceWr (n : Nat) : Prog Cbuf Unit := .atomic fun s =>
  some ((), { s with wrPtr := ptrAdd size s.wrPtr n })

def advanceRd (n : Nat) : Prog Cbuf Unit := .atomic fun s =>
  some ((), { s with rdPtr := ptrAdd size s.rdPtr n })

def copyIn (data : List UInt8) : Prog Cbuf Unit := do
  let wr ← loadWr
  if sizeAdd (index size wr) data.length ≤ size then
    let wr ← loadWr
    storeData (index size wr) data
  else
    let wr ← loadWr
    let sizeAtEnd := sizeSub size (index size wr)
    let sizeAtStart := sizeSub data.length sizeAtEnd
    let wr ← loadWr
    let bs ← sliceOf data 0 sizeAtEnd
    storeData (index size wr) bs
    let bs ← sliceOf data sizeAtEnd sizeAtStart
    storeData 0 bs

def cbufWrite (data : List UInt8) : Prog Cbuf Rc := do
  let free ← freeLevel size
  if data.length > free then pure .einval else
  copyIn size data
  advanceWr size data.length
  pure .ok

/-- The temporary buffer for a write of `n` bytes; `false` when `realloc` failed. -/
def growWriteTmp (alloc : Alloc) (n : Nat) : Prog Cbuf Bool := .atomic fun s =>
  if s.writeDataTmpSize < n then
    let newSize := if n ≤ s.hintMaxWriteSize then s.hintMaxWriteSize else calcBufsize n size
    let tmp := alloc.map (Block.realloc s.writeDataTmp newSize)
    some (tmp.isSome, { s with writeDataTmpSize := newSize, writeDataTmp := tmp })
  else some (true, s)

def writeTmpPtr : Prog Cbuf Ptr := .atomic fun s =>
  some (if s.writeDataTmp.isSome then .writeDataTmp else .null, s)

/-- `cbuf_reserve`; the pointer counts only when the code is `ok`. -/
def cbufReserve (alloc : Alloc) (n : Nat) : Prog Cbuf (Rc × Ptr) := do
  let free ← freeLevel size
  if n > free then pure (.einval, .null) else
  let wr ← loadWr
  if sizeAdd (index size wr) n ≤ size then
    let wr ← loadWr
    pure (.ok, .data (index size wr))
  else
    if ← growWriteTmp size alloc n then
      let ptr ← writeTmpPtr
      pure (.ok, ptr)
    else pure (.enomem, .null)

def copyFromTmp (n : Nat) : Prog Cbuf Unit := do
  let wr ← loadWr
  let sizeAtEnd := sizeSub size (index size wr)
  let wr ← loadWr
  let bs ← loadWriteTmp 0 sizeAtEnd
  storeData (index size wr) bs
  if n > sizeAtEnd then
    let sizeAtStart := sizeSub n sizeAtEnd
    let bs ← loadWriteTmp sizeAtEnd sizeAtStart
    storeData 0 bs
  else pure ()

def copyIfTmp (data : Ptr) (n : Nat) : Prog Cbuf Unit := do
  let tmp ← writeTmpPtr
  if data = tmp then copyFromTmp size n else pure ()

def cbufCommit (data : Ptr) (n : Nat) : Prog Cbuf Rc := do
  if n = 0 then pure .ok else
  copyIfTmp size data n
  advanceWr size n
  pure .ok

def copyOut (n : Nat) : Prog Cbuf (List UInt8) := do
  let rd ← loadRd
  if sizeAdd (index size rd) n ≤ size then
    let rd ← loadRd
    loadData (index size rd) n
  else
    let rd ← loadRd
    let sizeToEnd := signedOf 32 (sizeSub size (index size rd))
    let rd ← loadRd
    let atEnd ← loadData (index size rd) (unsignedOf 64 sizeToEnd)
    let atStart ← loadData 0 (unsignedOf 64 (n - sizeToEnd))
    pure (atEnd ++ atStart)

def cbufRead (n : Nat) : Prog Cbuf (Rc × List UInt8) := do
  if n = 0 then pure (.ok, []) else
  let fill ← fillLevel size
  if fill < n then pure (.einval, []) else
  let bs ← copyOut size n
  advanceRd size n
  pure (.ok, bs)

def growReadTmp (alloc : Alloc) (n : Nat) : Prog Cbuf Bool := .atomic fun s =>
  if s.readDataTmpSize < n then
    let newSize := if n ≤ s.hintMaxReadSize then s.hintMaxReadSize else calcBufsize n size
    let tmp := alloc.map (Block.realloc s.readDataTmp newSize)
    some (tmp.isSome, { s with readDataTmpSize := newSize, readDataTmp := tmp })
  else some (true, s)

def readTmpPtr : Prog Cbuf Ptr := .atomic fun s =>
  some (if s.readDataTmp.isSome then .readDataTmp else .null, s)

def copyToTmp (n : Nat) : Prog Cbuf Unit := do
  let rd ← loadRd
  let sizeToEnd := signedOf 32 (sizeSub size (index size rd))
  let rd ← loadRd
  copyToReadTmp 0 (index size rd) (unsignedOf 64 sizeToEnd)
  copyToReadTmp (unsignedOf 64 sizeToEnd) 0 (unsignedOf 64 (n - sizeToEnd))

/-- `cbuf_peek`; for `n = 0` it returns without a pointer. -/
def cbufPeek (alloc : Alloc) (n : Nat) : Prog Cbuf (Rc × Option Ptr) := do
  if n = 0 then pure (.ok, none) else
  let fill ← fillLevel size
  if fill < n then pure (.einval, none) else
  let rd ← loadRd
  if sizeAdd (index size rd) n ≤ size then
    let rd ← loadRd
    pure (.ok, some (.data (index size rd)))
  else
    if ← growReadTmp size alloc n then
      copyToTmp size n
      let ptr ← readTmpPtr
      pure (.ok, some ptr)
    else pure (.enomem, none)

def cbufDiscard (n : Nat) : Prog Cbuf Rc := do
  let fill ← fillLevel size
  if fill < n then pure .einval else
  advanceRd size n
  pure .ok

end

def storeThrough (ptr : Ptr) (bs : List UInt8) : Prog Cbuf Unit := .atomic fun s =>
  match ptr with
  | .data off => (s.data.store off bs).map fun d => ((), { s with data := d })
  | .writeDataTmp => (s.writeDataTmp.bind (·.store 0 bs)).map fun t =>
      ((), { s with writeDataTmp := some t })
  | .readDataTmp => (s.readDataTmp.bind (·.store 0 bs)).map fun t =>
      ((), { s with readDataTmp := some t })
  | .null => none

def loadThrough (ptr : Ptr) (n : Nat) : Prog Cbuf (List UInt8) := .atomic fun s =>
  match ptr with
  | .data off => (s.data.load off n).map (·, s)
  | .writeDataTmp => (s.writeDataTmp.bind (·.load 0 n)).map (·, s)
  | .readDataTmp => (s.readDataTmp.bind (·.load 0 n)).map (·, s)
  | .null => none

/-- A caller that reserves `n` bytes, fills the first of them with `data` and
commits `m` bytes. -/
def reserveCommit (size : Nat) (alloc : Alloc) (n : Nat) (data : List UInt8) (m : Nat) : Prog Cbuf Rc := do
  let r ← cbufReserve size alloc n
  if r.1 = .ok then
    storeThrough r.2 data
    cbufCommit size r.2 m
  else pure r.1

def peekBytes (size : Nat) (alloc : Alloc) (n m : Nat) : Prog Cbuf (Rc × List UInt8) := do
  let r ← cbufPeek size alloc n
  match r.2 with
  | some ptr =>
    let bs ← loadThrough ptr m
    pure (r.1, bs)
  | none => pure (r.1, [])

section Looks
variable {size : Nat} {stay : Cbuf → Cbuf → Prop} [Std.Refl stay]

/-- A step that only looks at the buffer. -/
theorem look_keeps {α : Type} (f : Cbuf → Option α) : (Prog.atomic fun s => (f s).map (·, s)).Keeps stay := by
  refine .atomic Std.Refl.refl fun s a t h => ?_
  obtain ⟨_, -, he⟩ := Option.map_eq_some_iff.mp h
  cases he
  exact Std.Refl.refl s

theorem loadWr_keeps : loadWr.Keeps stay := look_keeps fun s => some s.wrPtr

theorem loadRd_keeps : loadRd.Keeps stay := look_keeps fun s => some s.rdPtr

theorem loadData_keeps (off n : Nat) : (loadData off n).Keeps stay := look_keeps _

theorem loadWriteTmp_keeps (off n : Nat) : (loadWriteTmp off n).Keeps stay := look_keeps _

theorem writeTmpPtr_keeps : writeTmpPtr.Keeps stay :=
  look_keeps fun s => some (if s.writeDataTmp.isSome then Ptr.writeDataTmp else .null)

theorem readTmpPtr_keeps : readTmpPtr.Keeps stay :=
  look_keeps fun s => some (if s.readDataTmp.isSome then Ptr.readDataTmp else .null)

theorem loadThrough_keeps (ptr : Ptr) (n : Nat) : (loadThrough ptr n).Keeps stay := by
  refine .atomic Std.Refl.refl fun s a t h => ?_
  cases ptr with
  | null => cases h
  | data | writeDataTmp | readDataTmp =>
    obtain ⟨_, -, he⟩ := Option.map_eq_some_iff.mp h
    cases he
    exact Std.Refl.refl s

theorem isFull_keeps : (isFull size).Keeps stay :=
  loadWr_keeps.bind fun _ => loadRd_keeps.bind fun _ => .pure _

theorem fillLevel_keeps : (fillLevel size).Keeps stay :=
  isFull_keeps.bind fun _ => .ite (.pure _) (loadWr_keeps.bind fun _ => loadRd_keeps.bind fun _ => .pure _)

theorem freeLevel_keeps : (freeLevel size).Keeps stay := fillLevel_keeps.bind fun _ => .pure _

theorem copyOut_keeps (n : Nat) : (copyOut size n).Keeps stay := by
  refine loadRd_keeps.bind fun _ => .ite (loadRd_keeps.bind fun _ => loadData_keeps _ _) ?_
  exact loadRd_keeps.bind fun _ => loadRd_keeps.bind fun _ => (loadData_keeps _ _).bind fun _ =>
    (loadData_keeps _ _).bind fun _ => .pure _

/-- The two pieces are copied by steps that write the temporary buffer. -/
theorem copyToTmp_keeps (hcopy : ∀ dst off k, (copyToReadTmp dst off k).Keeps stay) (n : Nat) :
    (copyToTmp size n).Keeps stay :=
  loadRd_keeps.bind fun _ => loadRd_keeps.bind fun _ => (hcopy _ _ _).bind fun _ => hcopy _ _ _

end Looks
end Glip.CircularBuffer
