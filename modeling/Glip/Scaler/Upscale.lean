import Mathlib.Data.List.Basic
import Mathlib.Tactic.Common

/-! glip_upscale.sv, which passes words on as they are or puts two of them together. -/
namespace Glip.Scaler
variable {inSize outSize : Nat}

structure Upscale (inSize : Nat) where
  scale : Bool
  upper : BitVec inSize

namespace Upscale
variable (outSize) (s : Upscale inSize)

def inReady (outReady : Bool) : Bool := if outSize = inSize then outReady else !s.scale || outReady

def outValid (inValid : Bool) : Bool := if outSize = inSize then inValid else s.scale && inValid

def outData (inData : BitVec inSize) : BitVec outSize :=
  if outSize = inSize then inData.setWidth outSize else (s.upper ++ inData).setWidth outSize

def next (rst inValid outReady : Bool) (inData : BitVec inSize) : Upscale inSize :=
  if outSize = inSize then s
  else
    { scale :=
        if rst then false
        else if s.scale && inValid && s.inReady outSize outReady then false
        else if !s.scale && inValid && s.inReady outSize outReady then true
        else s.scale
      upper := if inValid && s.inReady outSize outReady then inData else s.upper }

def takes (inValid outReady : Bool) (inData : BitVec inSize) : List (BitVec inSize) :=
  if inValid && s.inReady outSize outReady then [inData] else []

variable {outSize}

def gives (inValid outReady : Bool) (inData : BitVec inSize) : List (BitVec outSize) :=
  if s.outValid outSize inValid && outReady then [s.outData outSize inData] else []

/-- The first word of a pair, until the second one comes. -/
def kept : List (BitVec inSize) := if s.scale then [s.upper] else []

end Upscale
end Glip.Scaler
