import Mallob.SignificantBits

namespace Mallob.MessageQueue

open SignificantBits

def sizeofInt : Nat := 4

def int32 (x : Int) : Int := x.bmod (2 ^ 32)

def sizeT (x : Int) : Nat := (x % 2 ^ 64).toNat

def binary32 (x : ℚ) : ℚ := roundBits 24 x

/-- The conversion of a float to an int: the smallest int stands for a value out
of range. -/
def intOfFloat (x : ℤ) : ℤ := if -2 ^ 31 ≤ x ∧ x < 2 ^ 31 then x else -2 ^ 31

structure SendHandle where
  id : Int
  data : List UInt8
  sentBatches : Int
  totalNumBatches : Int
  sizePerBatch : Int

inductive Message
  | single (data : List UInt8)
  | fragment (data : List UInt8) (id sentBatch totalNumBatches : Int)

def Message.length : Message → Nat
  | single data => data.length
  | fragment data _ _ _ => data.length + 3 * sizeofInt

namespace SendHandle

def create (id : Int) (data : List UInt8) (maxMsgSize : Int) : SendHandle where
  id := id
  data := data
  sentBatches := 0
  totalNumBatches :=
    if data.length ≤ sizeT maxMsgSize + 3 * sizeofInt then 1
    else intOfFloat ⌈binary32 (binary32 data.length / binary32 maxMsgSize)⌉
  sizePerBatch := maxMsgSize

def isFinished (h : SendHandle) : Bool := h.sentBatches = h.totalNumBatches

def isBatched (h : SendHandle) : Bool := h.totalNumBatches > 1

def isCancelled (h : SendHandle) : Bool := h.sizePerBatch = -1

def cancel (h : SendHandle) : SendHandle := { h with sizePerBatch := -1 }

def range (h : SendHandle) : Nat × Nat :=
  if h.isBatched then
    (sizeT (int32 (h.sentBatches * h.sizePerBatch)),
      min h.data.length (sizeT (int32 (h.sentBatches + 1)) * sizeT h.sizePerBatch % 2 ^ 64))
  else (0, h.data.length)

def sendNext (h : SendHandle) : Option (Message × SendHandle) :=
  if h.isFinished then none
  else if !h.isBatched then some (.single h.data, { h with sentBatches := 1 })
  else if h.isCancelled then some (.fragment [] h.id 0 0, { h with sentBatches := h.totalNumBatches })
  else if h.range.2 > h.range.1 then
    some (.fragment ((h.data.drop h.range.1).take (h.range.2 - h.range.1)) h.id h.sentBatches h.totalNumBatches,
      { h with sentBatches := int32 (h.sentBatches + 1) })
  else none

end SendHandle

structure ReceiveFragment where
  id : Int
  receivedFragments : Int := 0
  dataFragments : List (Option (List UInt8)) := []
  cancelled : Bool := false

namespace ReceiveFragment

/-- None stands for a failed assertion. -/
def receiveNext (f : ReceiveFragment) (data : List UInt8) (id sentBatch totalNumBatches : Int) :
    Option ReceiveFragment :=
  if data.length = 0 ∧ sentBatch = 0 ∧ totalNumBatches = 0 then some { f with cancelled := true }
  else if f.id = id ∧ sentBatch < totalNumBatches ∧ f.receivedFragments ≥ 0 then
    let dataFragments := f.dataFragments ++ List.replicate (totalNumBatches.toNat - f.dataFragments.length) none
    if dataFragments[sentBatch.toNat]? = some none then
      let receivedFragments := f.receivedFragments + 1
      some { f with
        dataFragments := dataFragments.set sentBatch.toNat (some data)
        receivedFragments := if receivedFragments = totalNumBatches then -1 else receivedFragments }
    else none
  else none

def isFinished (f : ReceiveFragment) : Bool := f.receivedFragments = -1

end ReceiveFragment

structure Receiver where
  maxMsgSize : Int
  fragment : Option ReceiveFragment := none
  received : List (List UInt8) := []

/-- The message of a finished or cancelled collection of fragments, if it gives
one; none stands for a missing fragment. -/
def assemble (f : ReceiveFragment) : Option (List (List UInt8)) :=
  if f.dataFragments = [] then some []
  else if f.cancelled then some []
  else (f.dataFragments.mapM id).map (fun fragments => [fragments.flatten])

/-- A message that does not fit into the receive buffer is an error. -/
def processReceived (r : Receiver) (message : Message) : Option Receiver :=
  if message.length > sizeT r.maxMsgSize + 20 then none
  else match message with
  | .single data => some { r with received := r.received ++ [data] }
  | .fragment data id sentBatch totalNumBatches =>
      ((r.fragment.getD { id := id }).receiveNext data id sentBatch totalNumBatches).bind fun f =>
        if f.cancelled ∨ f.isFinished then
          (assemble f).map fun messages => { r with fragment := none, received := r.received ++ messages }
        else some { r with fragment := some f }

def transmit : Nat → SendHandle → Receiver → Option Receiver
  | 0, h, r => if h.isFinished then some r else none
  | fuel + 1, h, r =>
      if h.isFinished then some r
      else h.sendNext.bind fun (message, h) => (processReceived r message).bind fun r => transmit fuel h r

structure Covered (h : SendHandle) : Prop where
  some : 0 < h.totalNumBatches
  first : { h with sentBatches := 0 }.range.1 = 0
  nonempty : ∀ i : Nat, i < h.totalNumBatches → { h with sentBatches := i }.range.1 < { h with sentBatches := i }.range.2
  consecutive : ∀ i : Nat, (i + 1 : Nat) < h.totalNumBatches →
    { h with sentBatches := i }.range.2 = { h with sentBatches := (i + 1 : Nat) }.range.1
  last : { h with sentBatches := h.totalNumBatches - 1 }.range.2 = h.data.length

/-- The payload is covered by the ranges that are sent, and it is what arrives. -/
def Transmitted (id : Int) (data : List UInt8) (maxMsgSize : Int) : Prop :=
  let h := SendHandle.create id data maxMsgSize
  Covered h ∧ (transmit h.totalNumBatches.toNat h { maxMsgSize := maxMsgSize }).map Receiver.received = some [data]

end Mallob.MessageQueue
