import Mallob.InactiveJobNodes

namespace Mallob

open InactiveJobNode InactiveJobNodeList

inductive Action
  | releaseFromWaiting (destination : Int) (jobId : Int) (index : Nat) (epoch : Int)
  | initializeChildWithNodes (destination : Int) (update : JobSchedulingUpdate)
  | sendBackNodes (destination : Int) (update : JobSchedulingUpdate)
  | returnNodes (destination : Int) (update : JobSchedulingUpdate)
  | directedRequest (epoch : Int) (index : Nat) (rank : Int)
  | undirectedRequest (epoch : Int) (index : Nat)
  | openSessions

inductive MsgDirective
  | doNothing
  | emitDirectedRequest
  | emitUndirectedRequest
deriving DecidableEq, Repr

structure ChildInterface where
  jobId : Int
  nodes : InactiveJobNodeList
  epoch : Int := -1
  volume : Int := -1
  childIndex : Nat
  childRank : Int := -1
  numQueriedJobNodes : Nat := 0
  childHasNodes : Bool := false

namespace ChildInterface

def wantsChild (c : ChildInterface) : Bool := c.childIndex < c.volume

/-- The available nodes, of all indices or of one, are told not to wait. -/
def toRelease (particularIndex : Option Nat) (n : InactiveJobNode) : Bool :=
  n.status = .available ∧ (particularIndex = none ∨ particularIndex = some n.originalIndex)

def notifyRemainingInactiveNodes (c : ChildInterface) (particularIndex : Option Nat) : ChildInterface × List Action :=
  ({ c with nodes := setStatuses c.nodes fun n => if toRelease particularIndex n then .busy else n.status },
    (c.nodes.toList.filter (toRelease particularIndex)).map fun n =>
      .releaseFromWaiting n.rank c.jobId n.originalIndex c.epoch)

def candidate (c : ChildInterface) : Option InactiveJobNode :=
  if c.numQueriedJobNodes < 4 then
    c.nodes.toList.find? fun n => n.status = .available ∧ n.originalIndex = c.childIndex
  else none

def recruitChild (c : ChildInterface) : ChildInterface × List Action × MsgDirective :=
  match c.candidate with
  | some node =>
    ({ c with childRank := node.rank, numQueriedJobNodes := c.numQueriedJobNodes + 1 }, [], .emitDirectedRequest)
  | none =>
    let (c, actions) := c.notifyRemainingInactiveNodes (some c.childIndex)
    (c, actions, .emitUndirectedRequest)

/-- Busy nodes may be available again; those that the new volume has no place
for are busy. -/
def renewedStatus (newVolume : Int) (n : InactiveJobNode) : Status :=
  let status := if n.status = .busy then .available else n.status
  if status = .available ∧ n.originalIndex ≥ newVolume then .busy else status

def renew (c : ChildInterface) (newEpoch newVolume : Int) : ChildInterface :=
  { c with
    numQueriedJobNodes := 0
    epoch := newEpoch
    volume := newVolume
    nodes := setStatuses c.nodes (renewedStatus newVolume) }

def handleBalancingUpdate (c : ChildInterface) (newEpoch newVolume : Int) (hasChild : Bool) :
    ChildInterface × List Action × MsgDirective :=
  if newEpoch ≤ c.epoch then (c, [], .doNothing)
  else
    let c := c.renew newEpoch newVolume
    if !hasChild && c.wantsChild then c.recruitChild
    else
      let (c, actions) := c.notifyRemainingInactiveNodes none
      (c, actions, .doNothing)

def addJobNodesFromSuspendedChild (c : ChildInterface) (newNodes : InactiveJobNodeList) : ChildInterface :=
  { c with nodes := mergePreferringNewer c.nodes newNodes, childHasNodes := false }

def findNode (c : ChildInterface) (rank : Int) (index : Nat) : Option InactiveJobNode :=
  let lowerBound : InactiveJobNode := ⟨rank, index, 2 ^ 31 - 1, .available⟩
  ((c.nodes.toList.dropWhile fun n => before n lowerBound).takeWhile fun n => n.originalIndex = index).find?
    fun n => n.rank = rank

def findAndUpdateNode (c : ChildInterface) (rank : Int) (index : Nat) (epoch : Int) (status : Status) :
    ChildInterface :=
  match c.findNode rank index with
  | some n => { c with nodes := (c.nodes.erase n).insert { n with lastEpoch := epoch, status := status } }
  | none => c

def handleRejectionOfPotentialChild (c : ChildInterface) (epoch : Int) (lost hasChild suspended : Bool) :
    ChildInterface × List Action × MsgDirective :=
  let c := c.findAndUpdateNode c.childRank c.childIndex epoch (if lost then .lost else .busy)
  if !hasChild && !suspended && c.wantsChild then c.recruitChild else (c, [], .doNothing)

def handleChildJoining (c : ChildInterface) (source : Int) (epoch : Int) : ChildInterface × List Action :=
  let (subtree, remaining) := extractSubtree c.nodes c.childIndex true
  let update : JobSchedulingUpdate :=
    { jobId := c.jobId, destinationIndex := c.childIndex, epoch := epoch, volume := c.volume,
      inactiveJobNodes := cleanUpStatuses subtree }
  let c := { c with childRank := source, childHasNodes := true, nodes := remaining }
  let c := c.findAndUpdateNode source c.childIndex epoch .busy
  let (c, actions) := c.notifyRemainingInactiveNodes none
  (c, .initializeChildWithNodes source update :: actions)

def removeNode (c : ChildInterface) (rank : Int) (epoch : Int) (index : Nat) : ChildInterface :=
  let node : InactiveJobNode := ⟨rank, index, epoch, .available⟩
  if c.nodes.contains node then { c with nodes := c.nodes.erase node } else c

end ChildInterface

end Mallob
