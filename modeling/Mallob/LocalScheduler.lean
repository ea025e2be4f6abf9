import Mallob.ChildInterface
import Mallob.Runs

namespace Mallob

open InactiveJobNodeList

inductive Side
  | left
  | right
deriving DecidableEq, Repr

structure LocalScheduler where
  rank : Int
  jobId : Int
  index : Nat
  parentRank : Int
  sessions : Side → Option ChildInterface := fun _ => none
  epochOfLastSuspension : Int := -1
  lastUpdateEpoch : Int := -1
  lastUpdateVolume : Int := -1
  suspending : Bool := false
  suspended : Bool := true
  resuming : Bool := false
  journal : List Action := []

namespace LocalScheduler

inductive Fault
  | missingSession
  | sessionExists
  | notSuspending
  | notARoot
  | cannotResume
deriving DecidableEq, Repr

def parentIndex (s : LocalScheduler) : Nat := (s.index - 1) / 2

def childIndex (s : LocalScheduler) : Side → Nat
  | .left => 2 * (s.index + 1) - 1
  | .right => 2 * (s.index + 1)

def log (s : LocalScheduler) (actions : List Action) : LocalScheduler := { s with journal := s.journal ++ actions }

def setSession (s : LocalScheduler) (side : Side) (session : ChildInterface) : LocalScheduler :=
  { s with sessions := Function.update s.sessions side (some session) }

def closeSessions (s : LocalScheduler) : LocalScheduler := { s with sessions := fun _ => none }

def applyDirective (session : ChildInterface) : MsgDirective → List Action
  | .doNothing => []
  | .emitDirectedRequest => [.directedRequest session.epoch session.childIndex session.childRank]
  | .emitUndirectedRequest => [.undirectedRequest session.epoch session.childIndex]

def apply (s : LocalScheduler) (side : Side) (result : ChildInterface × List Action × MsgDirective) :
    LocalScheduler :=
  (s.setSession side result.1).log (result.2.1 ++ applyDirective result.1 result.2.2)

def openSession (s : LocalScheduler) (side : Side) (nodes : InactiveJobNodeList) : Except Fault LocalScheduler :=
  match s.sessions side with
  | some _ => .error .sessionExists
  | none =>
    let session : ChildInterface := { jobId := s.jobId, nodes := nodes, childIndex := s.childIndex side }
    if s.lastUpdateEpoch ≥ 0 then
      .ok (s.apply side (session.handleBalancingUpdate s.lastUpdateEpoch s.lastUpdateVolume false))
    else .ok (s.setSession side session)

def noteUpdate (s : LocalScheduler) (update : JobSchedulingUpdate) : LocalScheduler :=
  if update.volume ≥ 0 ∧ update.epoch > s.lastUpdateEpoch then
    { s with lastUpdateEpoch := update.epoch, lastUpdateVolume := update.volume }
  else s

def initializeScheduling (s : LocalScheduler) (update : JobSchedulingUpdate) (parentRank : Int) :
    Except Fault LocalScheduler :=
  let s := { s with parentRank := parentRank }
  if s.index > 0 ∧ update.epoch ≤ s.epochOfLastSuspension then
    -- Past update: just send it back
    .ok (s.log [.sendBackNodes parentRank { update with destinationIndex := s.parentIndex }])
  else do
    let s := { (s.noteUpdate update).log [.openSessions] with suspended := false }
    let (leftNodes, rightNodes) := update.split s.index
    let s ← s.openSession .left leftNodes
    s.openSession .right rightNodes

def getSession (s : LocalScheduler) (side : Side) : Except Fault ChildInterface :=
  match s.sessions side with
  | some session => .ok session
  | none => .error .missingSession

def noChildHasNodes (s : LocalScheduler) : Except Fault Bool := do
  if (← s.getSession .left).childHasNodes then return false
  return !(← s.getSession .right).childHasNodes

def canReturnInactiveJobNodes (s : LocalScheduler) : Except Fault Bool :=
  if s.index = 0 then .ok false
  else if !s.suspended && s.suspending then s.noChildHasNodes
  else .ok false

def canResumeAsRoot (s : LocalScheduler) : Except Fault Bool :=
  if s.resuming then s.noChildHasNodes else .ok false

def mergedNodes (s : LocalScheduler) : Except Fault InactiveJobNodeList := do
  let nodes := mergePreferringNewer OrderedSet.empty (← s.getSession .left).nodes
  return mergePreferringNewer nodes (← s.getSession .right).nodes

def sendToParent (s : LocalScheduler) (nodes : InactiveJobNodeList) : LocalScheduler :=
  let update : JobSchedulingUpdate :=
    { jobId := s.jobId
      destinationIndex := s.parentIndex
      inactiveJobNodes := cleanUpStatuses (nodes.insert ⟨s.rank, s.index, s.lastUpdateEpoch, .available⟩) }
  { (s.log [.returnNodes s.parentRank update]).closeSessions with suspending := false, suspended := true }

def returnInactiveJobNodesToParent (s : LocalScheduler) : Except Fault LocalScheduler :=
  if !s.suspending || s.suspended then .error .notSuspending
  else do return s.sendToParent (← s.mergedNodes)

def resumeAsRoot (s : LocalScheduler) : Except Fault LocalScheduler := do
  if !(← s.canResumeAsRoot) then throw .cannotResume
  let nodes ← s.mergedNodes
  let update : JobSchedulingUpdate :=
    { epoch := max s.lastUpdateEpoch s.epochOfLastSuspension, volume := s.lastUpdateVolume,
      inactiveJobNodes := cleanUpStatuses nodes }
  initializeScheduling { s.closeSessions with resuming := false, suspending := false } update s.parentRank

def returnIfPossible (s : LocalScheduler) : Except Fault LocalScheduler := do
  if ← s.canReturnInactiveJobNodes then s.returnInactiveJobNodesToParent else return s

def resumeIfPossible (s : LocalScheduler) : Except Fault LocalScheduler := do
  if ← s.canResumeAsRoot then s.resumeAsRoot else return s

def suspensionEpoch (s : LocalScheduler) (epoch : Int) : Int :=
  if epoch = -1 then max s.lastUpdateEpoch s.epochOfLastSuspension else epoch

def beginSuspension (s : LocalScheduler) (epoch : Int) : Except Fault LocalScheduler :=
  let s := { s with epochOfLastSuspension := s.suspensionEpoch epoch }
  if s.suspended then .ok s else returnIfPossible { s with suspending := true }

def updateSession (s : LocalScheduler) (epoch volume : Int) (side : Side) (hasChild : Bool) : LocalScheduler :=
  match s.sessions side with
  | none => s
  | some session => s.apply side (session.handleBalancingUpdate epoch volume hasChild)

def updateBalancing (s : LocalScheduler) (epoch volume : Int) (hasLeftChild hasRightChild : Bool) :
    Except Fault LocalScheduler :=
  if s.lastUpdateEpoch ≥ epoch then .ok s
  else
    let s := { s with lastUpdateEpoch := epoch, lastUpdateVolume := volume }
    if s.suspending || s.suspended then .ok s
    else
      let s := (s.updateSession epoch volume .left hasLeftChild).updateSession epoch volume .right hasRightChild
      if volume ≤ s.index ∧ s.index > 0 then s.beginSuspension epoch else .ok s

def findSession (s : LocalScheduler) (p : ChildInterface → Bool) : Option (Side × ChildInterface) :=
  match (s.sessions .left).filter p with
  | some session => some (.left, session)
  | none => ((s.sessions .right).filter p).map fun session => (.right, session)

def getSessionByChildIndex (s : LocalScheduler) (childIndex : Nat) : Option (Side × ChildInterface) :=
  s.findSession fun session => session.childIndex = childIndex

def getSessionByChildRank (s : LocalScheduler) (childRank : Int) : Option (Side × ChildInterface) :=
  s.findSession fun session => session.childRank = childRank

/-- The two checks at the end of each message. -/
def settle (s : LocalScheduler) : Except Fault LocalScheduler := do (← s.returnIfPossible).resumeIfPossible

/-- MSG_SCHED_INITIALIZE_CHILD_WITH_NODES. -/
def handleInitialize (s : LocalScheduler) (source : Int) (update : JobSchedulingUpdate) :
    Except Fault LocalScheduler := do (← s.initializeScheduling update source).settle

def addReturnedNodes (s : LocalScheduler) (source : Int) (nodes : InactiveJobNodeList) : LocalScheduler :=
  match s.getSessionByChildRank source with
  | some (side, session) => s.setSession side (session.addJobNodesFromSuspendedChild nodes)
  | none => s

/-- MSG_SCHED_RETURN_NODES. -/
def handleReturn (s : LocalScheduler) (source : Int) (nodes : InactiveJobNodeList) : Except Fault LocalScheduler :=
  (s.addReturnedNodes source nodes).settle

def handleRejectReactivation (s : LocalScheduler) (epoch : Int) (index : Nat) (lost hasChild : Bool) :
    LocalScheduler :=
  match s.getSessionByChildIndex index with
  | none => s
  | some (side, session) =>
    s.apply side (session.handleRejectionOfPotentialChild epoch lost hasChild (s.suspended || s.suspending))

def handleChildJoining (s : LocalScheduler) (source epoch : Int) (index : Nat) : LocalScheduler :=
  match s.getSessionByChildIndex index with
  | none => s
  | some (side, session) =>
    let (session, actions) := session.handleChildJoining source epoch
    (s.setSession side session).log actions

def handleNodeFreed (s : LocalScheduler) (rank epoch : Int) (index : Nat) : LocalScheduler :=
  { s with sessions := fun side => (s.sessions side).map fun session => session.removeNode rank epoch index }

def beginResumptionAsRoot (s : LocalScheduler) : Except Fault LocalScheduler :=
  if s.index ≠ 0 then .error .notARoot
  else if !s.suspending || s.suspended then .error .notSuspending
  else resumeIfPossible { s with resuming := true }

def canCommit (s : LocalScheduler) : Bool := s.suspended

def resetRole (s : LocalScheduler) : LocalScheduler :=
  { s.closeSessions with epochOfLastSuspension := -1, lastUpdateEpoch := -1 }

inductive Call
  | initializeScheduling (update : JobSchedulingUpdate) (parentRank : Int)
  | updateBalancing (epoch volume : Int) (hasLeftChild hasRightChild : Bool)
  | beginSuspension (epoch : Int)
  | handleInitialize (source : Int) (update : JobSchedulingUpdate)
  | handleReturn (source : Int) (nodes : InactiveJobNodeList)
  | handleRejectReactivation (epoch : Int) (index : Nat) (lost hasChild : Bool)
  | handleChildJoining (source epoch : Int) (index : Nat)
  | handleNodeFreed (rank epoch : Int) (index : Nat)
  | beginResumptionAsRoot
  | resetRole

def step (s : LocalScheduler) : Call → Except Fault LocalScheduler
  | .initializeScheduling update parentRank => s.initializeScheduling update parentRank
  | .updateBalancing epoch volume hasLeftChild hasRightChild =>
    s.updateBalancing epoch volume hasLeftChild hasRightChild
  | .beginSuspension epoch => s.beginSuspension epoch
  | .handleInitialize source update => s.handleInitialize source update
  | .handleReturn source nodes => s.handleReturn source nodes
  | .handleRejectReactivation epoch index lost hasChild =>
    .ok (s.handleRejectReactivation epoch index lost hasChild)
  | .handleChildJoining source epoch index => .ok (s.handleChildJoining source epoch index)
  | .handleNodeFreed rank epoch index => .ok (s.handleNodeFreed rank epoch index)
  | .beginResumptionAsRoot => s.beginResumptionAsRoot
  | .resetRole => .ok s.resetRole

/-- The callers initialize a scheduler only while it has no session, resume only
a root that is suspending and reset only a scheduler that can commit. -/
def Permitted (s : LocalScheduler) : Call → Prop
  | .initializeScheduling _ _ => ∀ side, s.sessions side = none
  | .handleInitialize _ _ => ∀ side, s.sessions side = none
  | .beginResumptionAsRoot => s.index = 0 ∧ s.suspending = true
  | .resetRole => s.canCommit = true
  | _ => True

end LocalScheduler

end Mallob
