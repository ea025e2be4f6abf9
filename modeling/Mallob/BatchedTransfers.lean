import Mallob.BatchedMessages
import Mallob.Runs

namespace Mallob.MessageQueue

def msgOffsetBatched : Nat := 10000

structure Packet where
  source : Nat
  tag : Nat
  data : List UInt8
  id : Int
  sentBatch : Int
  totalNumBatches : Int
deriving DecidableEq

def Packet.key (p : Packet) : Nat × Int := (p.source, p.id)

def Packet.isCancellation (p : Packet) : Bool := p.data.length = 0 ∧ p.sentBatch = 0 ∧ p.totalNumBatches = 0

structure FragmentedMessage where
  source : Nat
  tag : Nat
  fragment : ReceiveFragment

namespace FragmentedMessage

def key (f : FragmentedMessage) : Nat × Int := (f.source, f.fragment.id)

def create (source tag : Nat) (id : Int) : FragmentedMessage := ⟨source, tag, { id := id }⟩

/-- None stands for a failed assertion; a cancellation is read before the source and the tag are looked at. -/
def receiveNext (f : FragmentedMessage) (tag : Nat) (p : Packet) : Option FragmentedMessage :=
  if f.fragment.id = -1 then none
  else if p.isCancellation ∨ f.source = p.source ∧ f.tag = tag then
    (f.fragment.receiveNext p.data p.id p.sentBatch p.totalNumBatches).map fun fragment =>
      { f with fragment := fragment }
  else none

end FragmentedMessage

structure MessageHandle where
  source : Nat
  tag : Nat
  id : Int
  data : List UInt8

def MessageHandle.key (m : MessageHandle) : Nat × Int := (m.source, m.id)

/-- A batched message in the queue of its sender, or one that has left it as finished. -/
structure Sending where
  tag : Nat
  handle : SendHandle

/-- The senders, the packets that they have handed to MPI and those of them that have not arrived, and the receiver. -/
structure Transfers where
  maxMsgSize : Int
  rank : Nat
  runningSendId : Nat → Int := fun _ => 1
  sendQueue : Nat × Int → Option Sending := fun _ => none
  sent : List Packet := []
  network : List Packet := []
  fragmentedMessages : Nat × Int → Option FragmentedMessage := fun _ => none
  fragmentedQueue : List FragmentedMessage := []
  fusedQueue : List MessageHandle := []
  delivered : List MessageHandle := []

/-- The id of a message exceeds an int, a sender has nothing to send, a fragment is refused, or one is missing. -/
inductive TransferFault
  | overflow
  | sendNext
  | receiveNext
  | assemble
deriving DecidableEq

namespace Transfers

/-- Only messages with several batches to the receiver, from others than itself, are followed. -/
def send (s : Transfers) (source dest tag : Nat) (data : List UInt8) : Except TransferFault Transfers :=
  let id := s.runningSendId source
  if id = 2 ^ 31 - 1 then .error .overflow
  else
    let handle := SendHandle.create id data s.maxMsgSize
    let s := { s with runningSendId := Function.update s.runningSendId source (id + 1) }
    if dest = s.rank ∧ source ≠ s.rank ∧ handle.isBatched then
      .ok { s with sendQueue := Function.update s.sendQueue (source, id) (some ⟨tag, handle⟩) }
    else .ok s

def isend (s : Transfers) (p : Packet) : Transfers := { s with sent := s.sent ++ [p], network := s.network ++ [p] }

def sendNext (s : Transfers) (source : Nat) (id : Int) : Except TransferFault Transfers :=
  match s.sendQueue (source, id) with
  | none => .ok s
  | some t =>
      if t.handle.isFinished then .ok s
      else
        match t.handle.sendNext with
        | some (.fragment data id' sentBatch totalNumBatches, handle) =>
            let s := { s with sendQueue := Function.update s.sendQueue (source, id) (some { t with handle := handle }) }
            .ok (s.isend ⟨source, t.tag + msgOffsetBatched, data, id', sentBatch, totalNumBatches⟩)
        | _ => .error .sendNext

def cancelSend (s : Transfers) (source : Nat) (id : Int) : Transfers :=
  match s.sendQueue (source, id) with
  | none => s
  | some t =>
      { s with sendQueue := Function.update s.sendQueue (source, id) (some { t with handle := t.handle.cancel }) }

def processReceived (s : Transfers) (p : Packet) : Except TransferFault Transfers :=
  if p.tag ≥ msgOffsetBatched then
    let tag := p.tag - msgOffsetBatched
    let fragment := (s.fragmentedMessages p.key).getD (.create p.source tag p.id)
    match fragment.receiveNext tag p with
    | none => .error .receiveNext
    | some fragment =>
        if fragment.fragment.cancelled || fragment.fragment.isFinished then
          .ok { s with
            fragmentedQueue := s.fragmentedQueue ++ [fragment]
            fragmentedMessages := Function.update s.fragmentedMessages p.key none }
        else .ok { s with fragmentedMessages := Function.update s.fragmentedMessages p.key (some fragment) }
  else .ok s

/-- The n-th packet arrives, unless the same source has sent one with the same tag before it. -/
def receive (s : Transfers) (n : Nat) : Except TransferFault Transfers :=
  match s.network[n]? with
  | none => .ok s
  | some p =>
      if (s.network.take n).any fun q => q.source = p.source ∧ q.tag = p.tag then .ok s
      else { s with network := s.network.eraseIdx n }.processReceived p

def runFragmentedMessageAssembler (s : Transfers) : Except TransferFault Transfers :=
  match s.fragmentedQueue with
  | [] => .ok s
  | f :: rest =>
      match assemble f.fragment with
      | none => .error .assemble
      | some messages =>
          .ok { s with
            fragmentedQueue := rest
            fusedQueue := s.fusedQueue ++ messages.map fun data => ⟨f.source, f.tag, f.fragment.id, data⟩ }

def processAssembledReceived (s : Transfers) : Transfers :=
  match s.fusedQueue with
  | [] => s
  | m :: rest => { s with fusedQueue := rest, delivered := s.delivered ++ [m] }

inductive Action
  | send (source dest tag : Nat) (data : List UInt8)
  | sendNext (source : Nat) (id : Int)
  | cancelSend (source : Nat) (id : Int)
  | receive (n : Nat)
  | assemble
  | callback

def step (s : Transfers) : Action → Except TransferFault Transfers
  | .send source dest tag data => s.send source dest tag data
  | .sendNext source id => s.sendNext source id
  | .cancelSend source id => .ok (s.cancelSend source id)
  | .receive n => s.receive n
  | .assemble => s.runFragmentedMessageAssembler
  | .callback => .ok s.processAssembledReceived

def start (maxMsgSize : Int) (rank : Nat) : Transfers where
  maxMsgSize := maxMsgSize
  rank := rank

end Transfers

end Mallob.MessageQueue
