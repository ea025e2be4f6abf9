import Mallob.IncomingJobs

namespace Mallob.Client

open Runs

/-- The limits on the jobs with a loaded description and on the active jobs, where 0 active jobs are no limit, and the
worker that a new job is sent to. -/
structure ClientOptions where
  loadedJobsPerClient : Int
  activeJobsPerClient : Nat
  initialNode : Nat → Nat

inductive ClientMessage
  | requestNode (dest jobId revision : Nat)
  | jobDescription (dest jobId revision : Nat)
  | queryJobResult (dest jobId revision : Nat)
  | incrementalJobFinished (dest jobId : Nat)
deriving DecidableEq

inductive Milestone
  | introduced (job : IncomingJob)
  | finished (jobId revision : Nat)

def Milestone.job : Milestone → Option IncomingJob
  | .introduced job => some job
  | .finished _ _ => none

/-- The jobs of a client from their submission to their end. The log, the jobs whose files were not read and the number
of answered offers are not part of the program. -/
structure ClientJobs where
  incoming : IncomingJobs := {}
  reading : List IncomingJob := []
  readyJobQueue : List IncomingJob := []
  numReadyJobs : Int := 0
  numLoadedJobs : Int := 0
  activeJobs : Std.ExtTreeMap Nat IncomingJob := ∅
  rootNodes : Nat → Option Nat := fun _ => none
  processedJobs : Nat := 0
  sent : List ClientMessage := []
  reported : List (Nat × Nat × Int) := []
  log : List Milestone := []
  skipped : List IncomingJob := []
  offers : Nat := 0

namespace ClientJobs

/-- A message is about a job that is not active, so that a null pointer is followed. -/
inductive Fault
  | notActive
deriving DecidableEq

def handleNewJob (s : ClientJobs) (data : IncomingJob) : ClientJobs :=
  { s with incoming := s.incoming.handleNewJob data }

def jobToRead (o : ClientOptions) (s : ClientJobs) (time : ℚ) : Option IncomingJob :=
  if s.incoming.numIncomingJobs > 0 ∧ s.numLoadedJobs < o.loadedJobsPerClient then
    s.incoming.findJob time s.incoming.incomingJobQueue.toList
  else none

def readIncomingJobs (o : ClientOptions) (s : ClientJobs) (time : ℚ) : ClientJobs :=
  { s with
    incoming := s.incoming.readIncomingJobs time s.numLoadedJobs o.loadedJobsPerClient
    reading := s.reading ++ (s.jobToRead o time).toList }

/-- A task of the thread pool ends. A job is dropped if its files cannot be read or the reader has been stopped. -/
def finishReading (s : ClientJobs) (i : Nat) (success : Bool) : ClientJobs :=
  match s.reading[i]? with
  | none => s
  | some job =>
      if success then
        { s with
          reading := s.reading.eraseIdx i
          readyJobQueue := s.readyJobQueue ++ [job]
          numReadyJobs := s.numReadyJobs + 1
          numLoadedJobs := s.numLoadedJobs + 1 }
      else { s with reading := s.reading.eraseIdx i, skipped := s.skipped ++ [job] }

def isEligible (o : ClientOptions) (s : ClientJobs) (job : IncomingJob) : Bool :=
  o.activeJobsPerClient ≤ 0 || s.activeJobs.size < o.activeJobsPerClient ||
    (job.isIncremental && s.activeJobs.contains job.id)

/-- An increment goes to the root node of the job. Where there is none yet, the map of root nodes gets rank 0. -/
def introduce (o : ClientOptions) (s : ClientJobs) (job : IncomingJob) (time : ℚ) : ClientJobs :=
  let nodeRank := if job.isIncremental then (s.rootNodes job.id).getD 0 else o.initialNode job.id
  { s with
    readyJobQueue := s.readyJobQueue.eraseP (s.isEligible o)
    numReadyJobs := s.numReadyJobs - 1
    activeJobs := s.activeJobs.insert job.id { job with arrival := time }
    rootNodes := if job.isIncremental then Function.update s.rootNodes job.id (some nodeRank) else s.rootNodes
    sent := s.sent ++ [.requestNode nodeRank job.id job.revision]
    log := s.log ++ [.introduced job] }

def introduceNextJob (o : ClientOptions) (s : ClientJobs) (time : ℚ) (terminating : Bool) : ClientJobs :=
  if terminating ∨ s.numReadyJobs = 0 then s
  else
    match s.readyJobQueue.find? (s.isEligible o) with
    | none => s
    | some job => s.introduce o job time

def handleOfferAdoption (s : ClientJobs) (source jobId : Nat) : Except Fault ClientJobs :=
  match s.activeJobs[jobId]? with
  | none => .error .notActive
  | some job => .ok { s with
      sent := s.sent ++ [.jobDescription source job.id job.revision]
      rootNodes := Function.update s.rootNodes jobId (some source)
      numLoadedJobs := s.numLoadedJobs - 1
      offers := s.offers + 1 }

def handleJobDone (s : ClientJobs) (successfulRank jobId revision : Nat) : Except Fault ClientJobs :=
  match s.activeJobs[jobId]? with
  | none => .error .notActive
  | some _ => .ok { s with sent := s.sent ++ [.queryJobResult successfulRank jobId revision] }

def finishJob (o : ClientOptions) (s : ClientJobs) (jobId : Nat) (hasIncrementalSuccessors : Bool) (time : ℚ)
    (terminating : Bool) : Except Fault ClientJobs :=
  match s.activeJobs[jobId]? with
  | none => .error .notActive
  | some job =>
      let done : ClientJobs := { s with
        incoming := s.incoming.finishJob jobId job.revision
        log := s.log ++ [.finished jobId job.revision] }
      let left : ClientJobs := if hasIncrementalSuccessors then done else { done with
        rootNodes := Function.update s.rootNodes jobId none
        activeJobs := s.activeJobs.erase jobId
        processedJobs := s.processedJobs + 1 }
      .ok (left.introduceNextJob o time terminating)

def report (s : ClientJobs) (jobId revision : Nat) (result : Int) : ClientJobs :=
  { s with reported := s.reported ++ [(jobId, revision, result)] }

def handleSendJobResult (o : ClientOptions) (s : ClientJobs) (jobId revision : Nat) (result : Int) (time : ℚ)
    (terminating : Bool) : Except Fault ClientJobs :=
  match s.activeJobs[jobId]? with
  | none => .error .notActive
  | some job => (s.report jobId revision result).finishJob o jobId job.isIncremental time terminating

def handleAbort (o : ClientOptions) (s : ClientJobs) (jobId : Nat) (time : ℚ) (terminating : Bool) :
    Except Fault ClientJobs :=
  match s.activeJobs[jobId]? with
  | none => .error .notActive
  | some job => (s.report jobId job.revision 0).finishJob o jobId job.isIncremental time terminating

def endIncrementalJob (o : ClientOptions) (time : ℚ) (terminating : Bool) (s : ClientJobs) (jobId : Nat) :
    Except Fault ClientJobs :=
  let root := (s.rootNodes jobId).getD 0
  let notified : ClientJobs := { s with
    rootNodes := Function.update s.rootNodes jobId (some root)
    sent := s.sent ++ [.incrementalJobFinished root jobId] }
  notified.finishJob o jobId false time terminating

def checkDoneJobs (o : ClientOptions) (s : ClientJobs) (time : ℚ) (terminating : Bool) : Except Fault ClientJobs :=
  s.incoming.recentlyDoneJobs.foldlM (endIncrementalJob o time terminating)
    { s with incoming.recentlyDoneJobs := [] }

/-- The critical sections of the interface, of the reader thread and its tasks, and the calls of the main thread. -/
inductive Event
  | handleNewJob (data : IncomingJob)
  | readIncomingJobs (time : ℚ)
  | finishReading (i : Nat) (success : Bool)
  | introduceNextJob (time : ℚ) (terminating : Bool)
  | handleOfferAdoption (source jobId : Nat)
  | handleJobDone (successfulRank jobId revision : Nat)
  | handleSendJobResult (jobId revision : Nat) (result : Int) (time : ℚ) (terminating : Bool)
  | handleAbort (jobId : Nat) (time : ℚ) (terminating : Bool)
  | checkDoneJobs (time : ℚ) (terminating : Bool)

def step (o : ClientOptions) (s : ClientJobs) : Event → Except Fault ClientJobs
  | .handleNewJob data => .ok (s.handleNewJob data)
  | .readIncomingJobs time => .ok (s.readIncomingJobs o time)
  | .finishReading i success => .ok (s.finishReading i success)
  | .introduceNextJob time terminating => .ok (s.introduceNextJob o time terminating)
  | .handleOfferAdoption source jobId => s.handleOfferAdoption source jobId
  | .handleJobDone successfulRank jobId revision => s.handleJobDone successfulRank jobId revision
  | .handleSendJobResult jobId revision result time terminating =>
      s.handleSendJobResult o jobId revision result time terminating
  | .handleAbort jobId time terminating => s.handleAbort o jobId time terminating
  | .checkDoneJobs time terminating => s.checkDoneJobs o time terminating

end ClientJobs

end Mallob.Client
