import Mathlib.Data.List.Basic
import Mathlib.Tactic.Common

/-! glip_downscale.sv, which passes words on as they are or in two halves. -/
namespace Glip.Scaler
variable {inSize outSize : Nat}

/-- The registers of `glip_downscale`; without use when the sizes are the same. -/
structure Downscale (outSize : Nat) where
  scale : Bool
  lower : BitVec outSize

namespace Downscale
variable (inSize) (s : Downscale outSize)

def inReady (outReady : Bool) : Bool := if outSize = inSize then outReady else !s.scale && outReady

def outValid (inValid : Bool) : Bool := if outSize = inSize then inValid else s.scale || inValid

variable {inSize}

def outData (inData : BitVec inSize) : BitVec outSize :=
  if outSize = inSize then inData.setWidth outSize
  else if s.scale then s.lower
  else inData.extractLsb' outSize outSize

def next (rst inValid outReady : Bool) (inData : BitVec inSize) : Downscale outSize :=
  if outSize = inSize then s
  else
    { scale :=
        if rst then false
        else if s.scale && s.outValid inSize inValid && outReady then false
        else if !s.scale && inValid && s.inReady inSize outReady then true
        else s.scale
      lower := if inValid && s.inReady inSize outReady then inData.setWidth outSize else s.lower }

def takes (inValid outReady : Bool) (inData : BitVec inSize) : List (BitVec inSize) :=
  if inValid && s.inReady inSize outReady then [inData] else []

def gives (inValid outReady : Bool) (inData : BitVec inSize) : List (BitVec outSize) :=
  if s.outValid inSize inValid && outReady then [s.outData inData] else []

/-- What is still to come of a word that has been taken in. -/
def kept (inSize : Nat) : List (BitVec outSize) :=
  if outSize = inSize then [] else if s.scale then [s.lower] else []

end Downscale

def parts (outSize : Nat) (word : BitVec inSize) : List (BitVec outSize) :=
  if outSize = inSize then [word.setWidth outSize] else [word.extractLsb' outSize outSize, word.setWidth outSize]

/-- A cycle away from reset is a step of a queue of parts. -/
theorem Downscale.kept_next (s : Downscale outSize) (inValid outReady : Bool) (inData : BitVec inSize) :
    s.gives inValid outReady inData ++ (s.next false inValid outReady inData).kept inSize =
      s.kept inSize ++ (s.takes inValid outReady inData).flatMap (parts outSize) := by
  obtain ⟨scale, lower⟩ := s
  by_cases hsize : outSize = inSize
  · cases inValid <;> cases outReady <;> simp [gives, takes, kept, parts, outValid, inReady, outData, hsize]
  · cases scale <;> cases inValid <;> cases outReady <;>
      simp [gives, takes, kept, parts, outValid, inReady, outData, next, hsize]

end Glip.Scaler
