import Mallob.Network

namespace Mallob.RanklistAggregation

open Network

inductive MessageTag
  | aggregateRanklist
  | broadcastRanklist
  | application (tag : Int)
deriving DecidableEq

structure JobMessage where
  jobId : Int
  tag : MessageTag
  epoch : Int
  payload : List Int
deriving DecidableEq

structure JobTree where
  index : Nat
  rank : Nat
  hasLeftChild : Bool
  hasRightChild : Bool
  jobNodeRanks : Nat → Nat

namespace JobTree

def isLeaf (tree : JobTree) : Bool := !tree.hasLeftChild && !tree.hasRightChild
def leftChildIndex (tree : JobTree) : Nat := 2 * (tree.index + 1) - 1
def rightChildIndex (tree : JobTree) : Nat := 2 * (tree.index + 1)
def parentIndex (tree : JobTree) : Nat := (tree.index - 1) / 2
def leftChildNodeRank (tree : JobTree) : Nat := tree.jobNodeRanks tree.leftChildIndex
def rightChildNodeRank (tree : JobTree) : Nat := tree.jobNodeRanks tree.rightChildIndex
def parentNodeRank (tree : JobTree) : Nat := tree.jobNodeRanks tree.parentIndex

end JobTree

structure JobComm where
  id : Int
  ranklist : List Int := []
  worldToIntRank : Int → Option Nat := fun _ => none
  nextRanklist : List Int := []
  aggregateRanklist : Bool := false
  numRanklistContribs : Nat := 0

inductive Fault
  | index
deriving DecidableEq

def entry (ranklist : List Int) (i : Nat) : Int := ranklist.getD i (-1)

def getWorldRankOrMinusOne (comm : JobComm) (intRank : Int) : Int :=
  if 0 ≤ intRank then entry comm.ranklist intRank.toNat else -1

def getInternalRankOrMinusOne (comm : JobComm) (worldRank : Int) : Int :=
  match comm.worldToIntRank worldRank with
  | some intRank => intRank
  | none => -1

def mapFrom (i : Nat) (map : Int → Option Nat) : List Int → Int → Option Nat
  | [] => map
  | rank :: ranks => mapFrom (i + 1) (Function.update map rank (some i)) ranks

def updateMap (comm : JobComm) : JobComm :=
  { comm with worldToIntRank := mapFrom 0 (fun _ => none) comm.ranklist }

def wantsToAggregate (comm : JobComm) (tree : JobTree) (due : Bool) : JobComm :=
  if tree.isLeaf && due then { comm with aggregateRanklist := true } else comm

abbrev Sends : Type := List (Envelope Unit JobMessage)

def isend (dest : Nat) (msg : JobMessage) : Envelope Unit JobMessage := ⟨(), dest, msg⟩

def beginAggregation (comm : JobComm) (tree : JobTree) : JobComm × Sends :=
  if tree.index = 0 then
    ({ updateMap { comm with ranklist := [(tree.rank : Int)] } with aggregateRanklist := false }, [])
  else
    ({ comm with aggregateRanklist := false },
      [isend tree.parentNodeRank
        { jobId := comm.id
          tag := .aggregateRanklist
          epoch := 0
          payload := (List.replicate (tree.index + 1) (-1)).set tree.index tree.rank }])

def updateFrom (next : List Int) (i : Nat) : List Int → List Int
  | [] => next
  | rank :: ranks =>
      let next := if next.length = i then next ++ [-1] else next
      updateFrom (if rank ≠ -1 then next.set i rank else next) (i + 1) ranks

def contains (next : List Int) (childIndex : Nat) : Bool := childIndex < next.length && entry next childIndex != -1

def readyToForward (tree : JobTree) (next : List Int) (numRanklistContribs : Nat) : Bool :=
  tree.hasLeftChild.toNat + tree.hasRightChild.toNat ≤ numRanklistContribs &&
    (!tree.hasLeftChild || contains next tree.leftChildIndex) &&
    (!tree.hasRightChild || contains next tree.rightChildIndex)

def toChildren (tree : JobTree) (msg : JobMessage) : Sends :=
  (if tree.hasLeftChild then [isend tree.leftChildNodeRank msg] else []) ++
    (if tree.hasRightChild then [isend tree.rightChildNodeRank msg] else [])

def store (comm : JobComm) (ranklist : List Int) : JobComm := updateMap { comm with ranklist := ranklist }

def forward (comm : JobComm) (tree : JobTree) (msg : JobMessage) : Except Fault (JobComm × Sends) :=
  if tree.index < comm.nextRanklist.length then
    let ranklist := comm.nextRanklist.set tree.index tree.rank
    let cleaned := { comm with nextRanklist := [], numRanklistContribs := 0 }
    if tree.index = 0 then
      .ok (store cleaned ranklist, toChildren tree { msg with payload := ranklist, tag := .broadcastRanklist })
    else .ok (cleaned, [isend tree.parentNodeRank { msg with payload := ranklist }])
  else .error .index

/-- The Boolean tells whether the message belonged here. -/
def handle (comm : JobComm) (tree : JobTree) (msg : JobMessage) : Except Fault (Bool × JobComm × Sends) :=
  match msg.tag with
  | .aggregateRanklist =>
      let comm := { comm with
        nextRanklist := updateFrom comm.nextRanklist 0 msg.payload
        numRanklistContribs := comm.numRanklistContribs + 1 }
      if readyToForward tree comm.nextRanklist comm.numRanklistContribs then
        (forward comm tree msg).map fun out => (true, out)
      else .ok (true, comm, [])
  | .broadcastRanklist => .ok (true, store comm msg.payload, toChildren tree msg)
  | .application _ => .ok (false, comm, [])

/-- A job tree that stays as it is, with a process of its own for every node. -/
structure FixedTree where
  size : Nat
  ranks : Nat → Nat
  two_le : 2 ≤ size
  distinct : ∀ i j, i < size → j < size → ranks i = ranks j → i = j

def FixedTree.jobTree (t : FixedTree) (index : Nat) : JobTree where
  index := index
  rank := t.ranks index
  hasLeftChild := 2 * index + 1 < t.size
  hasRightChild := 2 * index + 2 < t.size
  jobNodeRanks := t.ranks

structure State where
  comms : Nat → JobComm
  net : Net Unit JobMessage

def start (id : Int) : State where
  comms := fun _ => { id := id }
  net := Network.empty

inductive Call
  | wantsToAggregate (index : Nat) (due : Bool)
  | communicate (index : Nat)
  | deliver (source dest : Nat)

def sendAll (s : State) (t : FixedTree) (index : Nat) (comm : JobComm) (sends : Sends) : State where
  comms := Function.update s.comms index comm
  net := postAll s.net (t.ranks index) sends

def communicate (s : State) (t : FixedTree) (index : Nat) : State :=
  let comm := s.comms index
  if comm.aggregateRanklist then
    sendAll s t index (beginAggregation comm (t.jobTree index)).1 (beginAggregation comm (t.jobTree index)).2
  else s

def deliver (s : State) (t : FixedTree) (source dest : Nat) : Except Fault State :=
  match take s.net () (t.ranks source) (t.ranks dest) with
  | none => .ok s
  | some (msg, net) =>
      (handle (s.comms dest) (t.jobTree dest) msg).map fun out => sendAll { s with net := net } t dest out.2.1 out.2.2

def step (t : FixedTree) (s : State) : Call → Except Fault State
  | .wantsToAggregate index due =>
      if index < t.size then
        .ok { s with comms := Function.update s.comms index (wantsToAggregate (s.comms index) (t.jobTree index) due) }
      else .ok s
  | .communicate index => if index < t.size then .ok (communicate s t index) else .ok s
  | .deliver source dest => if source < t.size ∧ dest < t.size then deliver s t source dest else .ok s

end Mallob.RanklistAggregation
