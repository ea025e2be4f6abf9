import Mallob.BalancerCalls
import Mallob.CollectiveAssignment
import Mallob.JobDescription
import Mallob.LocalScheduler

namespace Mallob.Worker

inductive JobState
  | inactive
  | active
  | suspended
  | past
deriving DecidableEq, Repr

/-- What a worker knows of the tree of a job. A position whose rank has not been adjusted has the rank that
the permutation gives it. -/
structure JobTree where
  rank : Int
  permutation : Int → Int
  adjustedRanks : Int → Option Int := fun _ => none
  index : Int := -1
  clientRank : Int := 0
  hasLeftChild : Bool := false
  hasRightChild : Bool := false
  balancingEpochOfLastRequests : Int := -1
  waitEpoch : Int := -1
  stopWaitEpoch : Int := -1

namespace JobTree

def isRoot (tree : JobTree) : Bool := tree.index = 0
def isLeaf (tree : JobTree) : Bool := !tree.hasLeftChild && !tree.hasRightChild
def jobNodeRank (tree : JobTree) (index : Int) : Int := (tree.adjustedRanks index).getD (tree.permutation index)
def parentIndex (tree : JobTree) : Int := (tree.index - 1).tdiv 2
def parentNodeRank (tree : JobTree) : Int :=
  if tree.isRoot then tree.clientRank else tree.jobNodeRank tree.parentIndex

def childIndex (tree : JobTree) : Side → Int
  | .left => 2 * (tree.index + 1) - 1
  | .right => 2 * (tree.index + 1)

def childNodeRank (tree : JobTree) (side : Side) : Int := tree.jobNodeRank (tree.childIndex side)

def hasChild (tree : JobTree) : Side → Bool
  | .left => tree.hasLeftChild
  | .right => tree.hasRightChild

def withChild (tree : JobTree) (side : Side) (present : Bool) : JobTree :=
  match side with
  | .left => { tree with hasLeftChild := present }
  | .right => { tree with hasRightChild := present }

def updateJobNode (tree : JobTree) (index newRank : Int) : JobTree :=
  { tree with adjustedRanks := Function.update tree.adjustedRanks index (some newRank) }

def clearJobNodeUpdates (tree : JobTree) : JobTree := { tree with adjustedRanks := fun _ => none }

def unsetChild (tree : JobTree) (side : Side) : JobTree :=
  if tree.hasChild side then
    { tree.withChild side false with
      adjustedRanks := Function.update tree.adjustedRanks (tree.childIndex side) none }
  else tree

def setSide (tree : JobTree) (rank : Int) (side : Side) : JobTree :=
  (tree.withChild side true).updateJobNode (tree.childIndex side) rank

def setChild (tree : JobTree) (rank index : Int) : Option Side × JobTree :=
  if index = tree.childIndex .left then (some .left, tree.setSide rank .left)
  else if index = tree.childIndex .right then (some .right, tree.setSide rank .right)
  else (none, tree)

def prune (tree : JobTree) (leavingRank leavingIndex : Int) : Option Side × JobTree :=
  if tree.hasLeftChild ∧ tree.childIndex .left = leavingIndex ∧ tree.childNodeRank .left = leavingRank then
    (some .left, tree.unsetChild .left)
  else if tree.hasRightChild ∧ tree.childIndex .right = leavingIndex ∧ tree.childNodeRank .right = leavingRank then
    (some .right, tree.unsetChild .right)
  else (none, tree)

def updateParentNodeRank (tree : JobTree) (newRank : Int) : JobTree :=
  if tree.isRoot then { tree with clientRank := newRank } else tree.updateJobNode tree.parentIndex newRank

def update (tree : JobTree) (index rootRank parentRank : Int) : JobTree :=
  let tree := { tree with index := index }
  let rootRank := if index = 0 ∨ rootRank < 0 then tree.rank else rootRank
  ((tree.updateJobNode 0 rootRank).updateJobNode index tree.rank).updateParentNodeRank parentRank

def setWaitingForReactivation (tree : JobTree) (epoch : Int) : JobTree :=
  { tree with waitEpoch := max tree.waitEpoch epoch }

def stopWaitingForReactivation (tree : JobTree) (epoch : Int) : JobTree :=
  { tree with stopWaitEpoch := max tree.stopWaitEpoch epoch }

def isWaitingForReactivation (tree : JobTree) : Bool := tree.stopWaitEpoch < tree.waitEpoch

variable {tree : JobTree}

@[simp] theorem index_updateJobNode (i newRank : Int) : (tree.updateJobNode i newRank).index = tree.index := rfl

@[simp] theorem index_withChild (side : Side) (present : Bool) : (tree.withChild side present).index = tree.index := by
  cases side <;> rfl

@[simp] theorem index_unsetChild (side : Side) : (tree.unsetChild side).index = tree.index := by
  rw [unsetChild]
  split
  · exact index_withChild side false
  · rfl

@[simp] theorem index_setChild (rank i : Int) : (tree.setChild rank i).2.index = tree.index := by
  rw [setChild]
  split
  · exact index_withChild .left true
  · split
    · exact index_withChild .right true
    · rfl

@[simp] theorem index_prune (leavingRank leavingIndex : Int) :
    (tree.prune leavingRank leavingIndex).2.index = tree.index := by
  rw [prune]
  split
  · exact index_unsetChild .left
  · split
    · exact index_unsetChild .right
    · rfl

@[simp] theorem index_updateParentNodeRank (newRank : Int) : (tree.updateParentNodeRank newRank).index = tree.index := by
  rw [updateParentNodeRank]
  split <;> rfl

@[simp] theorem index_update (i rootRank parentRank : Int) : (tree.update i rootRank parentRank).index = i := by
  simp [update]

end JobTree

structure Job where
  id : Int
  application : Application
  state : JobState := .inactive
  tree : JobTree
  description : JobDescription := {}
  hasDescription : Bool := false
  desiredRevision : Int := 0
  lastSolvedRevision : Int := -1
  commitment : Option JobRequest := none
  balancingEpochOfLastCommitment : Int := -1
  volume : Int := 1
  priority : CFloat := 0x3c23d70a
  lastDemand : Int := 0

/-- Failed assertions, references that lead nowhere and keys without an entry. -/
inductive Fault
  | load
  | currentJob
  | notIdle
  | unknownJob
  | noActiveJob
  | jobState
  | committed
  | noDescription
  | noScheduler
  | cannotCommit
  | pendingRequest
  | notAChild
  | scheduler (fault : LocalScheduler.Fault)
  | balancer (fault : Mallob.Fault)
  | description (fault : JobDescription.Fault)
deriving DecidableEq

namespace Job

def isIncremental (job : Job) : Bool := job.application = .incrementalSat

def revision (job : Job) : Int := if job.hasDescription then job.description.revision.toInt else -1

def maxConsecutiveRevision (job : Job) : Int :=
  if job.hasDescription then (job.description.dataPerRevision.findIdx Option.isNone : Int) - 1 else -1

/-- The demand of an active job depends on the time. -/
def getDemand (job : Job) (growth : Int → Int) : Int :=
  if job.state ≠ .active then (if job.commitment.isSome then 1 else 0) else growth job.id

def updateJobTree (job : Job) (index rootRank parentRank : Int) : Job :=
  { job with tree := job.tree.update index (if index = 0 then -1 else rootRank) parentRank }

def commit (job : Job) (req : JobRequest) : Except Fault Job :=
  if job.state = .active ∨ job.state = .past then .error .jobState
  else .ok (updateJobTree
    { job with
      commitment := some req
      balancingEpochOfLastCommitment := req.balancingEpoch
      tree := job.tree.clearJobNodeUpdates } req.requestedNodeIndex req.rootRank req.requestingNodeRank)

def uncommit (job : Job) : Except Fault Job :=
  if job.state = .active then .error .jobState else .ok { job with commitment := none }

def pushRevision (job : Job) (data : List UInt8) : Except Fault Job :=
  match job.description.deserialize data with
  | .ok description => .ok { job with description := description, priority := description.priority, hasDescription := true }
  | .error fault => .error (.description fault)

def start (job : Job) : Except Fault Job :=
  if job.state = .inactive then .ok { job with volume := max 1 job.volume, state := .active } else .error .jobState

def suspend (job : Job) : Except Fault Job :=
  if job.state = .active then
    .ok { job with state := .suspended, tree := (job.tree.unsetChild .left).unsetChild .right }
  else .error .jobState

def resume (job : Job) : Except Fault Job :=
  if job.state = .suspended then .ok { job with volume := max 1 job.volume, state := .active } else .error .jobState

def terminate (job : Job) : Job :=
  { job with state := .past, tree := (job.tree.unsetChild .left).unsetChild .right }

end Job

end Mallob.Worker
