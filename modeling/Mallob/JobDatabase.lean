import Mallob.Reentrant
import Mallob.WorkerJob

namespace Mallob.Worker

open Reentrant (Proc)
open Reentrant.Proc (get modify fail call ensure when ofExcept ofOption)

structure WorkerConfig where
  worldRank : Int
  commSize : Int
  permutation : Int → Int → Int
  reactivationScheduling : Bool
  explicitVolumeUpdates : Bool
  mono : Bool
  jobCacheSize : Int
  floatValue : CFloat → ℚ

/-- What changes around the job database: the epoch and the volumes that the balancer has computed, and the
demand that the active jobs would have by now. -/
structure Environment where
  globalEpoch : Int
  jobVolumes : Int → Option Int
  growth : Int → Int

inductive JobRequestMode
  | targetedRejoin
  | normal
deriving DecidableEq, Repr

inductive AdoptionResult
  | adoptFromIdle
  | adoptReplaceCurrent (removedJob : Int)
  | reject
  | defer
deriving DecidableEq, Repr

structure RequestMessage where
  request : JobRequest
  source : Int
  mode : JobRequestMode

/-- The pointer to the current job is the identifier of this job. -/
structure JobDatabase where
  jobs : AList fun _ : Int => Job := ∅
  hasCommitment : Bool := false
  schedulers : AList fun _ : Int × Int => LocalScheduler := ∅
  numSchedulersPerJob : Int → Int := fun _ => 0
  load : Nat := 0
  currentJob : Option Int := none
  deferredRequests : List (Int × JobRequest) := []
  futureRequestMsgs : List RequestMessage := []
  rootRequests : Int → List JobRequest := fun _ => []
  pendingRootReactivateRequest : Option JobRequest := none
  balancer : JobRegistry := .start
  env : Environment

namespace JobDatabase

variable (cfg : WorkerConfig)

def job? (db : JobDatabase) (jobId : Int) : Option Job := db.jobs.lookup jobId
def has (db : JobDatabase) (jobId : Int) : Bool := (db.job? jobId).isSome
def hasActiveJob (db : JobDatabase) : Bool := db.load = 1
def isBusyOrCommitted (db : JobDatabase) : Bool := db.hasActiveJob || db.hasCommitment
def hasScheduler (db : JobDatabase) (jobId index : Int) : Bool := (db.schedulers.lookup (jobId, index)).isSome
def hasCommitmentFor (db : JobDatabase) (jobId : Int) : Bool := (db.job? jobId).any fun job => job.commitment.isSome
def storedJobs (db : JobDatabase) : List Job := db.jobs.entries.map Sigma.snd

def hasDormantRoot (db : JobDatabase) : Bool :=
  db.storedJobs.any fun job => job.tree.isRoot && decide (job.state = .suspended)

def hasDormantJob (db : JobDatabase) (jobId : Int) : Bool :=
  (db.job? jobId).any fun job => job.state = .suspended

def hasInactiveJobsWaitingForReactivation (db : JobDatabase) : Bool :=
  cfg.reactivationScheduling &&
    db.storedJobs.any fun job => decide (job.state = .suspended) && job.tree.isWaitingForReactivation

def isRequestObsolete (db : JobDatabase) (req : JobRequest) : Bool :=
  if req.requestedNodeIndex = 0 then false
  else if req.balancingEpoch < db.env.globalEpoch then true
  else match db.job? req.jobId with
    | none => false
    | some job => decide (job.state = .active) &&
        (decide (req.requestedNodeIndex = job.tree.index) ||
          job.tree.hasLeftChild && decide (req.requestedNodeIndex = job.tree.childIndex .left) ||
          job.tree.hasRightChild && decide (req.requestedNodeIndex = job.tree.childIndex .right))

def isAdoptionOfferObsolete (db : JobDatabase) (req : JobRequest) : Bool :=
  if req.requestedNodeIndex = 0 then false
  else match db.job? req.jobId with
    | none => true
    | some job =>
        if job.state ≠ .active ∧ job.commitment = none then true
        else if req.requestedNodeIndex ≠ job.tree.childIndex .left ∧
            req.requestedNodeIndex ≠ job.tree.childIndex .right then true
        else if req.revision < job.revision then true
        else decide (req.requestedNodeIndex = job.tree.childIndex .left) && job.tree.hasLeftChild ||
          decide (req.requestedNodeIndex = job.tree.childIndex .right) && job.tree.hasRightChild

end JobDatabase

open JobDatabase

abbrev WorkerProc := Proc JobDatabase Fault

variable (cfg : WorkerConfig)

def getJob (jobId : Int) : WorkerProc Job := do
  let db ← get
  ofOption .unknownJob (db.job? jobId)

def putJob (jobId : Int) (job : Job) : WorkerProc Unit :=
  modify fun db => { db with jobs := db.jobs.insert jobId job }

def modifyJob (jobId : Int) (f : Job → Job) : WorkerProc Unit := do
  let job ← getJob jobId
  putJob jobId (f job)

def changeJob (jobId : Int) (f : Job → Except Fault Job) : WorkerProc Unit := do
  let job ← getJob jobId
  let job ← ofExcept (f job)
  putJob jobId job

def getActive : WorkerProc Job := do
  let db ← get
  let jobId ← ofOption .noActiveJob db.currentJob
  getJob jobId

def createJob (jobId : Int) (application : Application) : WorkerProc Unit :=
  putJob jobId { id := jobId, application := application,
                 tree := { rank := cfg.worldRank, permutation := cfg.permutation jobId } }

/-- A call of the balancer. With an event it may get to a new balancing, which calls back. -/
def notifyBalancer (balancerCall : BalancerCall) : WorkerProc Unit := do
  let db ← get
  let (balancer, event) ← ofExcept ((db.balancer.call balancerCall).mapError .balancer)
  modify fun db => { db with balancer := balancer }
  when event.isSome call

def balancedJob (job : Job) : BalancedJob := ⟨job.id, job.tree.isRoot, cfg.floatValue job.priority⟩

def onActivate (job : Job) (demand : Int) : WorkerProc Unit := notifyBalancer (.onActivate (balancedJob cfg job) demand)
def onSuspend (job : Job) : WorkerProc Unit := notifyBalancer (.onSuspend (balancedJob cfg job))
def onTerminate (job : Job) : WorkerProc Unit := notifyBalancer (.onTerminate (balancedJob cfg job))

def unregisterJobFromBalancer (jobId : Int) : WorkerProc Unit := do
  let job ← getJob jobId
  onTerminate cfg job

def setLastDemand (jobId demand : Int) : WorkerProc Unit := modifyJob jobId fun job => { job with lastDemand := demand }

def handleDemandUpdate (job : Job) (demand : Int) : WorkerProc Unit := do
  notifyBalancer (.onDemandChange (balancedJob cfg job) demand)
  setLastDemand job.id demand

def setLoad (load : Nat) (whichJobId : Int) : WorkerProc Unit := do
  let db ← get
  ensure (load + db.load = 1) .load
  modify fun db => { db with load := load }
  ensure (db.has whichJobId) .unknownJob
  if load = 1 then do
    ensure (db.currentJob = none) .currentJob
    modify fun db => { db with currentJob := some whichJobId }
  else do
    ensure db.currentJob.isSome .currentJob
    modify fun db => { db with currentJob := none }

def onScheduler (key : Int × Int) (f : LocalScheduler → Except LocalScheduler.Fault LocalScheduler) :
    WorkerProc Unit := do
  let db ← get
  let scheduler ← ofOption .noScheduler (db.schedulers.lookup key)
  let scheduler ← ofExcept ((f scheduler).mapError .scheduler)
  modify fun db => { db with schedulers := db.schedulers.insert key scheduler }

def constructScheduler (key : Int × Int) (job : Job) : WorkerProc Unit := do
  let db ← get
  when (!db.hasScheduler key.1 key.2) <| modify fun db => { db with
    schedulers := db.schedulers.insert key
      { rank := cfg.worldRank, jobId := job.id, index := job.tree.index.toNat, parentRank := job.tree.parentNodeRank }
    numSchedulersPerJob := Function.update db.numSchedulersPerJob key.1 (db.numSchedulersPerJob key.1 + 1) }

def initScheduler (req : JobRequest) : WorkerProc Unit := do
  let job ← getJob req.jobId
  let key := (req.jobId, req.requestedNodeIndex)
  constructScheduler cfg key job
  if job.tree.isRoot then
    if req.revision = 0 then
      onScheduler key fun s => s.initializeScheduling { epoch := max 0 req.balancingEpoch } job.tree.parentNodeRank
    else onScheduler key LocalScheduler.beginResumptionAsRoot
  else do
    let db ← get
    ensure ((db.schedulers.lookup key).any LocalScheduler.canCommit) .cannotCommit
    onScheduler key fun s => .ok s.resetRole

def eraseScheduler (key : Int × Int) : WorkerProc Unit :=
  modify fun db => { db with
    schedulers := db.schedulers.erase key
    numSchedulersPerJob := Function.update db.numSchedulersPerJob key.1 (db.numSchedulersPerJob key.1 - 1) }

def suspendScheduler (job : Job) : WorkerProc Unit := do
  let key := (job.id, job.tree.index)
  let db ← get
  match db.schedulers.lookup key with
  | none => pure ()
  | some scheduler => do
      when (!scheduler.suspended && !scheduler.suspending) (onScheduler key fun s => s.beginSuspension (-1))
      let db ← get
      when (job.tree.index > 0 ∧ (db.schedulers.lookup key).any LocalScheduler.canCommit) (eraseScheduler key)

def appendRevision (jobId : Int) (data : List UInt8) : WorkerProc Bool := do
  let db ← get
  match db.job? jobId with
  | none => pure false
  | some job => do
      let rev ← ofExcept ((JobDescription.readRevisionIndex data).mapError .description)
      if (if job.hasDescription then (rev : Int) ≠ job.maxConsecutiveRevision + 1 else rev ≠ 0) then pure false
      else do
        changeJob jobId fun job => job.pushRevision data
        pure true

def execute (jobId : Int) : WorkerProc Unit := do
  let db ← get
  when (db.has jobId) do
    setLoad 1 jobId
    changeJob jobId fun job => if job.state = .inactive then job.start else job.resume
    let job ← getJob jobId
    let demand := job.getDemand db.env.growth
    onActivate cfg job demand
    setLastDemand jobId demand

def preregisterJobInBalancer (jobId : Int) : WorkerProc Unit := do
  let db ← get
  let job ← getJob jobId
  let demand := max 1 (if job.tree.isRoot then 0 else job.getDemand db.env.growth)
  onActivate cfg job demand
  when job.tree.isRoot (setLastDemand jobId demand)

def commit (req : JobRequest) : WorkerProc Unit := do
  let db ← get
  when (db.has req.jobId) do
    changeJob req.jobId fun job => job.commit req
    modify fun db => { db with hasCommitment := true }
    preregisterJobInBalancer cfg req.jobId

def uncommit (jobId : Int) : WorkerProc Unit := do
  let db ← get
  when (db.has jobId) do
    changeJob jobId Job.uncommit
    modify fun db => { db with hasCommitment := false }

def reactivate (req : JobRequest) : WorkerProc Unit := do
  modifyJob req.jobId fun job => job.updateJobTree req.requestedNodeIndex req.rootRank req.requestingNodeRank
  setLoad 1 req.jobId
  let db ← get
  ensure (!db.hasCommitmentFor req.jobId) .committed
  changeJob req.jobId Job.resume
  let job ← getJob req.jobId
  let demand := job.getDemand db.env.growth
  onActivate cfg job demand
  setLastDemand req.jobId demand

def suspend (jobId : Int) : WorkerProc Unit := do
  let job ← getJob jobId
  ensure (job.state = .active) .jobState
  suspendScheduler job
  changeJob jobId Job.suspend
  setLoad 0 jobId
  let job ← getJob jobId
  onSuspend cfg job

def forget (jobId : Int) : WorkerProc Unit := do
  let job ← getJob jobId
  when (job.state ≠ .past) (putJob jobId job.terminate)
  modify fun db => { db with jobs := db.jobs.erase jobId }

def terminate (jobId : Int) : WorkerProc Unit := do
  let job ← getJob jobId
  let db ← get
  when db.hasActiveJob do
    let active ← getActive
    when (active.id = jobId) (setLoad 0 jobId)
  putJob jobId job.terminate
  when job.commitment.isSome (uncommit jobId)
  when (job.state ≠ .past) do
    let job ← getJob jobId
    onTerminate cfg job
  forget jobId

/-- A scheduler is kept while its job is active or committed, while it cannot commit, and at the root. -/
def keepsScheduler (db : JobDatabase) (key : Int × Int) : Bool :=
  (db.job? key.1).any (fun job => decide (job.state = .active) || job.commitment.isSome) ||
    !((!db.has key.1 || decide (key.2 > 0)) && (db.schedulers.lookup key).any LocalScheduler.canCommit)

/-- The jobs to be forgotten: old jobs that have not started, and suspended jobs, the oldest ones first, as far
as the cache is exceeded. -/
def jobsToForget (db : JobDatabase) (age ageSinceActivation : Int → ℚ) : List Int :=
  let uncommitted := db.storedJobs.filter fun job => job.commitment.isNone
  let old := uncommitted.filter fun job => decide (job.state = .inactive) && decide (10 ≤ age job.id)
  let suspendedQueue := uncommitted.filter fun job => decide (job.state = .suspended) &&
    decide (db.numSchedulersPerJob job.id = 0) && decide (0 < cfg.jobCacheSize) && !job.tree.isRoot
  let oldestFirst := suspendedQueue.insertionSort fun a b => ageSinceActivation b.id ≤ ageSinceActivation a.id
  (old ++ oldestFirst.take (oldestFirst.length - cfg.jobCacheSize.toNat)).map Job.id

def forgetOldJobs (age ageSinceActivation : Int → ℚ) : WorkerProc Unit := do
  let db ← get
  (db.schedulers.keys.filter fun key => !keepsScheduler db key).forM eraseScheduler
  let db ← get
  (jobsToForget cfg db age ageSinceActivation).forM forget

def refuses (db : JobDatabase) (req : JobRequest) : Bool :=
  db.hasCommitment ||
    db.hasDormantRoot && !(db.job? req.jobId).any (fun job => job.tree.isRoot && decide (job.state = .suspended)) ||
    (db.schedulers.lookup (req.jobId, req.requestedNodeIndex)).any (fun s => !s.canCommit) ||
    (if (db.job? req.jobId).any fun job => job.tree.isRoot then decide (req.requestedNodeIndex > 0)
      else db.hasDormantRoot && decide (req.requestedNodeIndex = 0))

def replaceableJob (req : JobRequest) : WorkerProc (Option Int) := do
  let db ← get
  if (db.job? req.jobId).any fun job => job.state = .active then pure none
  else do
    let job ← getActive
    pure (if job.state = .active ∧ !job.tree.isRoot ∧ job.tree.isLeaf then some job.id else none)

def tryAdopt (req : JobRequest) (mode : JobRequestMode) (sender : Int) : WorkerProc AdoptionResult := do
  let db ← get
  if refuses db req then pure .reject
  else if !db.isBusyOrCommitted then
    if mode ≠ .targetedRejoin ∨ db.hasDormantJob req.jobId then pure .adoptFromIdle else pure .reject
  else if req.requestedNodeIndex = 0 ∧ !cfg.reactivationScheduling then do
    let removed ← replaceableJob req
    match removed with
    | some jobId => do
        suspend cfg jobId
        pure (.adoptReplaceCurrent jobId)
    | none =>
        if req.numHops > 0 ∧ req.numHops % max 32 cfg.commSize = 0 then do
          modify fun db => { db with deferredRequests := db.deferredRequests ++ [(sender, req)] }
          pure .defer
        else pure .reject
  else pure .reject

def setPendingRootReactivationRequest (req : JobRequest) : WorkerProc Unit := do
  let db ← get
  ensure (db.pendingRootReactivateRequest.all fun r => req.jobId = r.jobId) .pendingRequest
  modify fun db => { db with pendingRootReactivateRequest := some req }

def addRootRequest (req : JobRequest) : WorkerProc Unit := do
  modify fun db => { db with
    rootRequests := Function.update db.rootRequests req.jobId (db.rootRequests req.jobId ++ [req]) }
  notifyBalancer (.onProbe req.jobId)

def getArrivedFutureRequests : WorkerProc (List RequestMessage) := do
  let db ← get
  modify fun db => { db with
    futureRequestMsgs := db.futureRequestMsgs.filter fun m => m.request.balancingEpoch > db.env.globalEpoch }
  pure ((db.futureRequestMsgs.filter fun m => m.request.balancingEpoch ≤ db.env.globalEpoch).insertionSort
    fun a b => a.request.balancingEpoch ≤ b.request.balancingEpoch)

end Mallob.Worker
