import Mallob.SatReader

namespace Mallob

abbrev Name : Type := List UInt8

structure Submission where
  user : Option Name := none
  name : Option Name := none
  incremental : Bool := false
  priority : CFloat := 0x3f800000
  application : Option Name := none
  interrupt : Bool := false
  precursor : Option Name := none
  done : Bool := false
  wallclockLimit : Option CFloat := none
  cpuLimit : Option CFloat := none
  maxDemand : Option CInt := none
  assumptions : List CInt := []
  literals : List CInt := []
  files : List Name := []
  configuration : List (Name × Name) := []
  dependencies : List Name := []
  contentMode : ContentMode := .ascii

namespace Submission

def jsonEnding : Name := [46, 106, 115, 111, 110]

def jobName (json : Submission) : Option Name := do
  let user ← json.user
  let name ← json.name
  return user ++ [46] ++ name ++ jsonEnding

def precursorName (json : Submission) : Option Name :=
  if json.incremental then json.precursor.map (· ++ jsonEnding) else none

def dependencyNames (json : Submission) : List Name := json.dependencies.map (· ++ jsonEnding)

/-- The letters SAT select an application. -/
def appl (json : Submission) : Application :=
  if json.application = some [83, 65, 84] then if json.incremental then .incrementalSat else .oneshotSat else .dummy

end Submission

structure JobMetadata where
  id : Nat
  revision : Nat := 0
  priority : CFloat := 0
  application : Application
  wallclockLimit : CFloat := 0
  cpuLimit : CFloat := 0
  maxDemand : CInt := 0
  preloadedAssumptions : List CInt := []
  preloadedLiterals : List CInt := []
  appConfig : AppConfiguration := {}
  files : List Name := []
  contentMode : ContentMode := .ascii
  dependencies : List Nat := []
  interrupt : Bool := false
  done : Bool := false

structure JobImage where
  id : Nat
  userQualifiedName : Name
  incremental : Bool
  baseJson : Submission

structure JsonInterface where
  applicationConfiguration : AppConfiguration := {}
  runningId : Nat
  jobNameToIdRev : Name → Option (Nat × Nat) := fun _ => none
  jobIdToLatestRev : Nat → Option Nat := fun _ => none
  jobIdRevToImage : Nat × Nat → Option JobImage := fun _ => none

namespace JsonInterface

def start (applicationConfiguration : AppConfiguration) (clientRank : Nat) : JsonInterface where
  applicationConfiguration := applicationConfiguration
  runningId := clientRank * 100000 + 1

inductive Result
  | accept
  | acceptConclude
  | discard
deriving DecidableEq

inductive Fault
  | outOfRange
  | null
deriving DecidableEq

abbrev Handled : Type := JsonInterface × Result × Option JobMetadata

def mapName (s : JsonInterface) (name : Name) : JsonInterface × Nat :=
  match s.jobNameToIdRev name with
  | some (id, _) => (s, id)
  | none =>
      ({ s with
          runningId := s.runningId + 1
          jobNameToIdRev := Function.update s.jobNameToIdRev name (some (s.runningId, 0)) }, s.runningId)

def mapNames (s : JsonInterface) : List Name → JsonInterface × List Nat
  | [] => (s, [])
  | name :: names => (((s.mapName name).1.mapNames names).1, (s.mapName name).2 :: ((s.mapName name).1.mapNames names).2)

def configure (s : JsonInterface) (json : Submission) : AppConfiguration :=
  { map := json.configuration.foldl (fun map option => map.insert option.1 option.2) s.applicationConfiguration.map }

def introduce (s : JsonInterface) (id : Nat) (json : Submission) : Handled :=
  ((s.mapNames json.dependencyNames).1, .accept, some
    { id := id
      revision := (s.jobIdToLatestRev id).getD 0
      priority := json.priority
      application := json.appl
      wallclockLimit := json.wallclockLimit.getD 0
      cpuLimit := json.cpuLimit.getD 0
      maxDemand := json.maxDemand.getD 0
      preloadedAssumptions := json.assumptions
      preloadedLiterals := json.literals
      appConfig := s.configure json
      files := json.files
      contentMode := json.contentMode
      dependencies := (s.mapNames json.dependencyNames).2 })

def interruptJob (s : JsonInterface) (jobName : Name) (json : Submission) : Handled :=
  match s.jobNameToIdRev jobName with
  | none => (s, .discard, none)
  | some (id, _) => (s, .accept, some { id := id, application := json.appl, interrupt := true })

def eraseImage (id : Nat) (images : Nat × Nat → Option JobImage) (rev : Nat) :
    Except Fault (Nat × Nat → Option JobImage) :=
  match images (id, rev) with
  | none => .error .outOfRange
  | some _ => .ok (Function.update images (id, rev) none)

def concludeJob (s : JsonInterface) (precursorName : Name) (id : Nat) (json : Submission) : Except Fault Handled := do
  let latest := (s.jobIdToLatestRev id).getD 0
  let images ← (List.range (latest + 1)).foldlM (eraseImage id) s.jobIdRevToImage
  return ({ s with
      jobNameToIdRev := Function.update s.jobNameToIdRev precursorName none
      jobIdToLatestRev := Function.update s.jobIdToLatestRev id none
      jobIdRevToImage := images }, .acceptConclude, some { id := id, application := json.appl, done := true })

def addIncrement (s : JsonInterface) (jobName : Name) (id rev : Nat) (json : Submission) : Handled :=
  introduce { s with
    jobNameToIdRev := Function.update s.jobNameToIdRev jobName (some (id, rev + 1))
    jobIdToLatestRev := Function.update s.jobIdToLatestRev id (some (rev + 1))
    jobIdRevToImage := Function.update s.jobIdRevToImage (id, rev + 1) (some ⟨id, jobName, true, json⟩) } id json

def addJob (s : JsonInterface) (jobName : Name) (json : Submission) : Handled :=
  let (s, id) := s.mapName jobName
  match s.jobIdRevToImage (id, 0) with
  | some _ => (s, .discard, none)
  | none =>
      introduce { s with
        jobIdToLatestRev := Function.update s.jobIdToLatestRev id (some 0)
        jobIdRevToImage := Function.update s.jobIdRevToImage (id, 0) (some ⟨id, jobName, json.incremental, json⟩) } id json

def handle (s : JsonInterface) (terminating : Bool) (json : Submission) : Except Fault Handled :=
  if terminating then .ok (s, .discard, none)
  else
    match json.jobName with
    | none => .ok (s, .discard, none)
    | some jobName =>
        if json.interrupt then .ok (s.interruptJob jobName json)
        else
          match json.precursorName with
          | none => .ok (s.addJob jobName json)
          | some precursorName =>
              match s.jobNameToIdRev precursorName with
              | none => .ok (s, .discard, none)
              | some (id, rev) =>
                  if json.done then s.concludeJob precursorName id json else .ok (s.addIncrement jobName id rev json)

def handleJobDone (s : JsonInterface) (terminating : Bool) (id revision : Nat) : Except Fault JsonInterface :=
  if terminating then .ok s
  else
    match s.jobIdRevToImage (id, revision) with
    | none => .error .null
    | some img =>
        if img.incremental then .ok s
        else .ok { s with
          jobNameToIdRev := Function.update s.jobNameToIdRev img.userQualifiedName none
          jobIdRevToImage := Function.update s.jobIdRevToImage (id, revision) none }

end JsonInterface

/-- The interface, what it passed to the client for which job files, and the jobs that the client has finished. -/
structure SubmissionLog where
  interface : JsonInterface
  passed : List (Submission × JobMetadata) := []
  doneJobs : List Nat := []

namespace SubmissionLog

inductive Event
  | handle (terminating : Bool) (json : Submission)
  | handleJobDone (terminating : Bool) (id revision : Nat)
  | finishJob (id : Nat)

def step (w : SubmissionLog) : Event → Except JsonInterface.Fault SubmissionLog
  | .handle terminating json => do
      let (s, _, metadata) ← w.interface.handle terminating json
      return { w with interface := s, passed := w.passed ++ metadata.toList.map fun data => (json, data) }
  | .handleJobDone terminating id revision => do
      let s ← w.interface.handleJobDone terminating id revision
      return { w with interface := s }
  | .finishJob id => .ok { w with doneJobs := id :: w.doneJobs }

def start (applicationConfiguration : AppConfiguration) (clientRank : Nat) : SubmissionLog where
  interface := .start applicationConfiguration clientRank

end SubmissionLog

end Mallob
