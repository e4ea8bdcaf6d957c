import Glip.Foundation.WireVector

/-! The messages that the host of backend_uart.c sends to the target, as bytes. -/
namespace Glip.Uart
open Foundation

/-- The marker of a control message, which is doubled where it is data. -/
def marker : UInt8 := 0xfe

def maxTranche : Nat := 0x3fff

structure Tranche where
  val : Nat
  pos : 0 < val
  le_max : val ≤ maxTranche

def creditFirst (targetCreditAdd : Nat) : UInt8 := UInt8.ofNat (0x1 ||| (targetCreditAdd >>> 8) <<< 1)
def creditSecond (targetCreditAdd : Nat) : UInt8 := UInt8.ofNat (targetCreditAdd &&& 0xff)

def creditBytes (targetCreditAdd : Nat) : List UInt8 :=
  [marker, creditFirst targetCreditAdd, creditSecond targetCreditAdd]

/-- The array `reset` of `reset_logic`. -/
def resetLogicBytes (state : UInt8) : List UInt8 := [marker, (state &&& 0x1) <<< 1 ||| 0x81]

def resetComBytes (state : UInt8) : List UInt8 := [marker, (state &&& 0x1) <<< 1 ||| 0x85]

/-- The bytes that `thread_func` writes for a word of the output buffer. -/
def wordBytes (word : UInt8) : List UInt8 := if word = marker then [word, word] else [word]

inductive HostMessage where
  | word (b : UInt8)
  | credit (add : Tranche)
  | logicReset (value : Bool)
  | comReset (value : Bool)

def HostMessage.bytes : HostMessage → List UInt8
  | .word b => wordBytes b
  | .credit add => creditBytes add.val
  | .logicReset value => resetLogicBytes (if value then 1 else 0)
  | .comReset value => resetComBytes (if value then 1 else 0)

end Glip.Uart
