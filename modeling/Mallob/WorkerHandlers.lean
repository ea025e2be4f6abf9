import Mallob.JobDatabase

namespace Mallob

namespace LocalScheduler

def acceptsChild (s : LocalScheduler) (index : Nat) : Bool :=
  (s.getSessionByChildIndex index).any fun found => found.2.wantsChild

end LocalScheduler

namespace Worker

open JobDatabase
open Reentrant (Proc Component Action)
open Reentrant.Proc (get modify call ensure when)

variable (cfg : WorkerConfig)

def cancelCommitment (jobId : Int) : WorkerProc Unit := do
  uncommit jobId
  unregisterJobFromBalancer cfg jobId
  let job ← getJob jobId
  suspendScheduler job

def leaveJob (jobId : Int) : WorkerProc Unit := do
  let job ← getJob jobId
  if job.state = .active then suspend cfg jobId else cancelCommitment cfg jobId

def activateRootRequest (jobId : Int) : WorkerProc Unit :=
  modify fun db => { db with rootRequests := Function.update db.rootRequests jobId (db.rootRequests jobId).tail }

/-- The request goes to another worker. Only the worker of a single job remembers its rank. -/
def spawnJobRequest (jobId : Int) (side : Side) : WorkerProc Unit :=
  modifyJob jobId fun job =>
    if cfg.mono then
      { job with tree := job.tree.updateJobNode (job.tree.childIndex side) (job.tree.childIndex side) }
    else job

def propagateToChild (jobId volume balancingEpoch : Int) (side : Side) (hasChild : Bool) (nextIndex : Int) :
    WorkerProc Bool := do
  let job ← getJob jobId
  if hasChild then do
    when (cfg.reactivationScheduling ∧ nextIndex ≥ volume) do
      modifyJob jobId fun job => { job with tree := (job.tree.prune (job.tree.childNodeRank side) nextIndex).2 }
    pure true
  else if nextIndex < volume ∧ job.tree.balancingEpochOfLastRequests < balancingEpoch then do
    let db ← get
    if db.hasDormantRoot then do
      leaveJob cfg jobId
      pure false
    else do
      when (!cfg.reactivationScheduling) (spawnJobRequest cfg jobId side)
      pure true
  else pure true

def propagateVolumeUpdate (jobId volume balancingEpoch : Int) : WorkerProc Unit := do
  let job ← getJob jobId
  let continues ← propagateToChild cfg jobId volume balancingEpoch .left job.tree.hasLeftChild (job.tree.childIndex .left)
  when continues do
    let _ ← propagateToChild cfg jobId volume balancingEpoch .right job.tree.hasRightChild (job.tree.childIndex .right)

def updateVolumeOfMember (job : Job) (volume balancingEpoch : Int) : WorkerProc Unit := do
  let db ← get
  when (cfg.reactivationScheduling ∧ db.hasScheduler job.id job.tree.index) do
    onScheduler (job.id, job.tree.index) fun s =>
      s.updateBalancing balancingEpoch volume job.tree.hasLeftChild job.tree.hasRightChild
  propagateVolumeUpdate cfg job.id volume balancingEpoch
  modifyJob job.id fun job => { job with tree := { job.tree with balancingEpochOfLastRequests := balancingEpoch } }
  when (job.tree.index > 0 ∧ job.tree.index ≥ volume) (leaveJob cfg job.id)

def updateWaiting (index prevVolume volume balancingEpoch : Int) (tree : JobTree) : JobTree :=
  let wasWaiting := tree.isWaitingForReactivation
  let tree := if index < prevVolume ∧ index < volume ∧ wasWaiting then tree.setWaitingForReactivation balancingEpoch
    else tree
  if index ≥ prevVolume ∧ index < volume then tree.setWaitingForReactivation balancingEpoch else tree

@[simp] theorem index_updateWaiting (index prevVolume volume balancingEpoch : Int) (tree : JobTree) :
    (updateWaiting index prevVolume volume balancingEpoch tree).index = tree.index := by
  rw [updateWaiting]
  split <;> split <;> rfl

def updateVolume (jobId volume balancingEpoch : Int) : WorkerProc Unit := do
  let db ← get
  match db.job? jobId with
  | none => activateRootRequest jobId
  | some previous => do
      modifyJob jobId fun job => { job with
        volume := volume, tree := job.tree.stopWaitingForReactivation (balancingEpoch - 1) }
      let job ← getJob jobId
      if job.state = .active ∨ job.commitment.isSome then updateVolumeOfMember cfg job volume balancingEpoch
      else when (job.state = .suspended) do
        modifyJob jobId fun job => { job with
          tree := updateWaiting job.tree.index previous.volume volume balancingEpoch job.tree }

def initiateVolumeUpdate (jobId : Int) : WorkerProc Unit := do
  let job ← getJob jobId
  let db ← get
  if cfg.explicitVolumeUpdates then
    when (job.tree.isRoot ∧ job.volume > 1) (updateVolume cfg jobId job.volume db.env.globalEpoch)
  else if db.env.globalEpoch < job.balancingEpochOfLastCommitment then pure ()
  else match db.env.jobVolumes jobId with
    | some volume => updateVolume cfg jobId volume db.env.globalEpoch
    | none => pure ()

def adopt (req : JobRequest) : WorkerProc Unit := do
  let db ← get
  ensure (!db.isBusyOrCommitted) .notIdle
  when (!db.has req.jobId) (createJob cfg req.jobId req.application)
  commit cfg req
  when cfg.reactivationScheduling (initScheduler cfg req)

def tryAdoptRequest (req : JobRequest) (source : Int) (mode : JobRequestMode) : WorkerProc Unit := do
  let db ← get
  let blocked := cfg.reactivationScheduling ∧ mode ≠ .targetedRejoin ∧ db.hasInactiveJobsWaitingForReactivation cfg ∧
    req.requestedNodeIndex > 0
  let adoptionResult ← (if blocked then pure .reject else tryAdopt cfg req mode source)
  match adoptionResult with
  | .adoptFromIdle => adopt cfg req
  | .adoptReplaceCurrent removedJob => do
      let _ ← getJob removedJob
      adopt cfg req
  | .reject => do
      let db ← get
      when (req.requestedNodeIndex = 0 ∧ (db.job? req.jobId).any fun job => job.tree.isRoot)
        (setPendingRootReactivationRequest req)
  | .defer => pure ()

def handleRequestNode (msg : RequestMessage) : WorkerProc Unit := do
  let db ← get
  let req := msg.request
  if db.isRequestObsolete req then pure ()
  else if req.requestedNodeIndex = 0 ∧ req.numHops = 0 ∧ req.revision = 0 then addRootRequest req
  else if req.balancingEpoch > db.env.globalEpoch then
    modify fun db => { db with futureRequestMsgs := db.futureRequestMsgs ++ [msg] }
  else do
    when (cfg.reactivationScheduling ∧ msg.mode = .targetedRejoin ∧ db.has req.jobId) do
      modifyJob req.jobId fun job => { job with tree := job.tree.stopWaitingForReactivation req.balancingEpoch }
    tryAdoptRequest cfg req msg.source msg.mode

def handleAnswerAdoptionOffer (source jobId requestedNodeIndex : Int) (accepted : Bool) : WorkerProc Unit := do
  let db ← get
  match (db.job? jobId).bind Job.commitment with
  | none => pure ()
  | some req =>
      if req.requestedNodeIndex ≠ requestedNodeIndex ∨ req.requestingNodeRank ≠ source then pure ()
      else if accepted then do
        initiateVolumeUpdate cfg req.jobId
        let job ← getJob jobId
        match job.commitment with
        | none => pure ()
        | some req => do
            modifyJob jobId fun job => { job with desiredRevision := req.revision }
            when job.hasDescription do
              uncommit req.jobId
              let job ← getJob jobId
              if job.state = .suspended then reactivate cfg req else execute cfg req.jobId
      else cancelCommitment cfg req.jobId

def interruptJob (jobId : Int) (terminate : Bool) : WorkerProc Unit := do
  let db ← get
  match db.job? jobId with
  | none => pure ()
  | some job =>
      if !terminate ∧ job.commitment = none ∧ (job.state = .suspended ∨ job.state = .inactive) then pure ()
      else do
        when job.commitment.isSome (cancelCommitment cfg jobId)
        if terminate then Worker.terminate cfg jobId
        else do
          let job ← getJob jobId
          when (job.state = .active) (suspend cfg jobId)

def handleNotifyJobAborting (jobId : Int) : WorkerProc Unit := do
  let db ← get
  match db.job? jobId with
  | none => pure ()
  | some job => interruptJob cfg jobId !job.isIncremental

def handleNotifyResultFound (jobId revision : Int) : WorkerProc Unit := do
  let db ← get
  match db.job? jobId with
  | none => pure ()
  | some job =>
      if !job.tree.isRoot ∨ job.revision > revision ∨ job.lastSolvedRevision ≥ revision then pure ()
      else do
        modifyJob jobId fun job => { job with lastSolvedRevision := revision }
        ensure job.hasDescription .noDescription
        interruptJob cfg jobId (job.description.application ≠ .incrementalSat)

def handleSendJobDescription (data : List UInt8) : WorkerProc Unit := do
  let jobId : Int := if 4 ≤ data.length then (ByteLayout.ofBytes 4 (data.take 4)).toInt else -1
  let db ← get
  if jobId = -1 ∨ !db.has jobId then
    when (db.hasCommitmentFor jobId) (cancelCommitment cfg jobId)
  else do
    let valid ← appendRevision jobId data
    if !valid then pure ()
    else do
      let job ← getJob jobId
      match job.commitment with
      | none => pure ()
      | some req => do
          modifyJob jobId fun job => { job with desiredRevision := req.revision }
          uncommit jobId
          execute cfg jobId
          initiateVolumeUpdate cfg jobId

def handleNotifyVolumeUpdate (jobId volume balancingEpoch : Int) : WorkerProc Unit := do
  let db ← get
  when (db.has jobId) (updateVolume cfg jobId volume balancingEpoch)

def handleNotifyNodeLeavingJob (source jobId index : Int) : WorkerProc Unit := do
  let db ← get
  match db.job? jobId with
  | none => pure ()
  | some job => do
      let (pruned, tree) := job.tree.prune source index
      modifyJob jobId fun job => { job with tree := tree }
      match pruned with
      | some side => when (index < job.volume) (spawnJobRequest cfg jobId side)
      | none => pure ()

def reportOffer (source : Int) (req : JobRequest) (rejected : Bool) : WorkerProc Unit := do
  let db ← get
  match db.job? req.jobId with
  | none => pure ()
  | some job =>
      let hasChild := if req.requestedNodeIndex = job.tree.childIndex .left then job.tree.hasLeftChild
        else job.tree.hasRightChild
      when (db.hasScheduler req.jobId job.tree.index) do
        onScheduler (req.jobId, job.tree.index) fun s => .ok
          (if rejected then s.handleRejectReactivation req.balancingEpoch req.requestedNodeIndex.toNat false hasChild
            else s.handleChildJoining source req.balancingEpoch req.requestedNodeIndex.toNat)

def declinesOffer (db : JobDatabase) (req : JobRequest) : Bool :=
  db.isAdoptionOfferObsolete req || cfg.reactivationScheduling && (db.job? req.jobId).any fun job =>
    (db.schedulers.lookup (req.jobId, job.tree.index)).any fun s => !s.acceptsChild req.requestedNodeIndex.toNat

def handleOfferAdoption (source : Int) (req : JobRequest) : WorkerProc Unit := do
  let db ← get
  match db.job? req.jobId with
  | none => pure ()
  | some job => do
      let rejected := declinesOffer cfg db req
      when (!rejected) do
        let (relative, tree) := job.tree.setChild source req.requestedNodeIndex
        modifyJob req.jobId fun job => { job with tree := tree }
        ensure (relative.isSome || decide (req.requestedNodeIndex = 0)) .notAChild
      when cfg.reactivationScheduling (reportOffer source req rejected)

def handleRejectOneshot (req : JobRequest) (isChildStillDormant : Bool) : WorkerProc Unit := do
  let db ← get
  match db.job? req.jobId with
  | none => pure ()
  | some job =>
      let hasChild := if req.requestedNodeIndex = job.tree.childIndex .left then job.tree.hasLeftChild
        else job.tree.hasRightChild
      when (cfg.reactivationScheduling ∧ db.hasScheduler req.jobId job.tree.index) do
        onScheduler (req.jobId, job.tree.index) fun s => .ok
          (s.handleRejectReactivation req.balancingEpoch req.requestedNodeIndex.toNat (!isChildStillDormant) hasChild)

def handleSchedReleaseFromWaiting (jobId epoch : Int) : WorkerProc Unit := do
  let db ← get
  when ((db.job? jobId).any fun job => decide (job.state ≠ .inactive) || job.commitment.isSome) do
    modifyJob jobId fun job => { job with tree := job.tree.stopWaitingForReactivation epoch }

/-- A message for a scheduler is ignored where there is no such scheduler. -/
def handleSchedulerCall (jobId index : Int) (schedulerCall : LocalScheduler.Call) : WorkerProc Unit := do
  let db ← get
  when (db.hasScheduler jobId index) (onScheduler (jobId, index) fun s => s.step schedulerCall)

def checkActiveJob (limitExceeded : Bool) : WorkerProc Unit := do
  let job ← getActive
  if job.tree.isRoot && limitExceeded then handleNotifyJobAborting cfg job.id
  else when (job.state = .active ∧ job.tree.isRoot) do
    let db ← get
    let demand := job.getDemand db.env.growth
    when (demand ≠ job.lastDemand) (handleDemandUpdate cfg job demand)

def reactivateRoot : WorkerProc Unit := do
  let db ← get
  match db.pendingRootReactivateRequest with
  | some req => do
      modify fun db => { db with pendingRootReactivateRequest := none }
      handleRequestNode cfg ⟨req, cfg.worldRank, .normal⟩
  | none => pure ()

def checkJobs (limitExceeded : Bool) : WorkerProc Unit := do
  reactivateRoot cfg
  let db ← get
  when db.hasActiveJob (checkActiveJob cfg limitExceeded)

/-- The messages and the periodic tasks of a worker. A message to a scheduler is one of its calls; balance is
any call of the balancer by itself, and observe lets time pass. -/
inductive Handler
  | answerAdoptionOffer (source jobId requestedNodeIndex : Int) (accepted : Bool)
  | notifyJobAborting (jobId : Int)
  | notifyJobTerminating (jobId : Int)
  | notifyResultFound (jobId revision : Int)
  | incrementalJobFinished (jobId : Int)
  | interrupt (jobId : Int)
  | notifyNodeLeavingJob (source jobId index : Int)
  | notifyVolumeUpdate (jobId volume balancingEpoch : Int)
  | offerAdoption (source : Int) (req : JobRequest)
  | rejectOneshot (req : JobRequest) (isChildStillDormant : Bool)
  | requestNode (msg : RequestMessage)
  | sendJobDescription (data : List UInt8)
  | schedReleaseFromWaiting (jobId epoch : Int)
  | schedulerCall (jobId index : Int) (schedulerCall : LocalScheduler.Call)
  | balance
  | checkJobs (limitExceeded : Bool)
  | forgetOldJobs (age ageSinceActivation : Int → ℚ)
  | forwardDeferredRequests (number : Nat)
  | observe (env : Environment)

def handle : Handler → WorkerProc Unit
  | .answerAdoptionOffer source jobId requestedNodeIndex accepted =>
      handleAnswerAdoptionOffer cfg source jobId requestedNodeIndex accepted
  | .notifyJobAborting jobId => handleNotifyJobAborting cfg jobId
  | .notifyJobTerminating jobId => interruptJob cfg jobId true
  | .notifyResultFound jobId revision => handleNotifyResultFound cfg jobId revision
  | .incrementalJobFinished jobId => interruptJob cfg jobId true
  | .interrupt jobId => interruptJob cfg jobId false
  | .notifyNodeLeavingJob source jobId index => handleNotifyNodeLeavingJob cfg source jobId index
  | .notifyVolumeUpdate jobId volume balancingEpoch => handleNotifyVolumeUpdate cfg jobId volume balancingEpoch
  | .offerAdoption source req => handleOfferAdoption cfg source req
  | .rejectOneshot req isChildStillDormant => handleRejectOneshot cfg req isChildStillDormant
  | .requestNode msg => handleRequestNode cfg msg
  | .sendJobDescription data => handleSendJobDescription cfg data
  | .schedReleaseFromWaiting jobId epoch => handleSchedReleaseFromWaiting jobId epoch
  | .schedulerCall jobId index schedulerCall => handleSchedulerCall jobId index schedulerCall
  | .balance => call
  | .checkJobs limitExceeded => Worker.checkJobs cfg limitExceeded
  | .forgetOldJobs age ageSinceActivation => Worker.forgetOldJobs cfg age ageSinceActivation
  | .forwardDeferredRequests number => modify fun db => { db with deferredRequests := db.deferredRequests.drop number }
  | .observe env => modify fun db => { db with env := env }

/-- What the balancer calls back: the new volume of a job, and the end of a balancing. -/
inductive Callback
  | volumeUpdate (jobId volume : Int)
  | balancingDone
  | observe (env : Environment)

def callback : Callback → WorkerProc Unit
  | .volumeUpdate jobId volume => do
      let db ← get
      updateVolume cfg jobId volume db.env.globalEpoch
  | .balancingDone => do
      let arrived ← getArrivedFutureRequests
      arrived.forM (handleRequestNode cfg)
  | .observe env => modify fun db => { db with env := env }

def worker : Component JobDatabase Fault Handler Callback := ⟨handle cfg, callback cfg⟩

end Worker

end Mallob
