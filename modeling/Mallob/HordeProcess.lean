import Mallob.Checksum

namespace Mallob.HordeProcess

structure HordeSharedMemory where
  desiredRevision : Int
  doImport : Bool := false
  doReturnClauses : Bool := false
  doStartNextRevision : Bool := false
  didImport : Bool := false
  didReturnClauses : Bool := false
  didStartNextRevision : Bool := false
  importBufferMaxSize : Nat
  importBufferSize : Nat := 0
  importBufferRevision : Int := 0
  returnedBufferSize : Nat := 0
  importChecksum : Checksum := {}
  importBuffer : List Int
  returnedBuffer : List Int

structure Adapter where
  tempClauseBuffers : List (List Int × Checksum) := []
  tempReturnedClauses : List (List Int) := []
  revisionsToWrite : List Int := []
  writtenRevision : Int := 0
  publishedRevision : Int := 0
  desiredRevision : Int

/-- The child, with the arguments of its calls of the solver engine: the buffers
to digest, and the returned buffers with the sizes given for them. -/
structure Process where
  lastImportedRevision : Int := 0
  desiredRevision : Int
  digestSharing : List (List Int × Checksum) := []
  returnClauses : List (List Int × Nat) := []

structure State where
  hsm : HordeSharedMemory
  adapter : Adapter
  process : Process

inductive Fault
  | importBufferSize
deriving DecidableEq

def doInitialize (importBufferMaxSize : Nat) (firstrev : Int) : State where
  hsm :=
    { desiredRevision := firstrev
      importBufferMaxSize := importBufferMaxSize
      importBuffer := List.replicate importBufferMaxSize 0
      returnedBuffer := List.replicate importBufferMaxSize 0 }
  adapter := { desiredRevision := firstrev }
  process := { desiredRevision := firstrev }

def memcpy (buffer values : List Int) (size : Nat) : List Int := values.take size ++ buffer.drop (values.take size).length

def doDigest (s : State) (clauses : List Int) (checksum : Checksum) : Except Fault State :=
  if clauses.length ≤ s.hsm.importBufferMaxSize then
    .ok { s with
      hsm := { s.hsm with
        importChecksum := checksum
        importBufferSize := clauses.length
        importBufferRevision := s.adapter.desiredRevision
        importBuffer := memcpy s.hsm.importBuffer clauses clauses.length
        doImport := true } }
  else .error .importBufferSize

def digestClauses (s : State) (clauses : List Int) (checksum : Checksum) : Except Fault State :=
  if s.hsm.doImport then
    .ok { s with adapter.tempClauseBuffers := s.adapter.tempClauseBuffers ++ [(clauses, checksum)] }
  else doDigest s clauses checksum

def doReturnClauses (s : State) (clauses : List Int) : State :=
  { s with
    hsm := { s.hsm with
      returnedBufferSize := clauses.length
      returnedBuffer := memcpy s.hsm.returnedBuffer clauses (min s.hsm.importBufferMaxSize clauses.length)
      doReturnClauses := true } }

def returnClauses (s : State) (clauses : List Int) : State :=
  if s.hsm.doReturnClauses then
    { s with adapter.tempReturnedClauses := s.adapter.tempReturnedClauses ++ [clauses] }
  else doReturnClauses s clauses

def appendRevisions (s : State) (revisions : List Int) (desiredRevision : Int) : State :=
  { s with
    adapter := { s.adapter with
      revisionsToWrite := s.adapter.revisionsToWrite ++ revisions
      desiredRevision := desiredRevision } }

def writeRevision (s : State) : State :=
  match s.adapter.revisionsToWrite with
  | [] => s
  | revision :: revisions =>
      { s with adapter := { s.adapter with revisionsToWrite := revisions, writtenRevision := revision } }

def takeBack (s : State) : State :=
  { s with
    hsm := { s.hsm with
      doImport := if s.hsm.didImport then false else s.hsm.doImport
      doReturnClauses := if s.hsm.didReturnClauses then false else s.hsm.doReturnClauses
      doStartNextRevision := if s.hsm.didStartNextRevision then false else s.hsm.doStartNextRevision } }

def publishRevision (s : State) : State :=
  if !s.hsm.doStartNextRevision && !s.hsm.didStartNextRevision &&
      s.adapter.publishedRevision < s.adapter.writtenRevision then
    { s with
      hsm := { s.hsm with desiredRevision := s.adapter.desiredRevision, doStartNextRevision := true }
      adapter := { s.adapter with publishedRevision := s.adapter.publishedRevision + 1 } }
  else s

def digestNext (s : State) : Except Fault State :=
  if !s.hsm.doImport && !s.hsm.didImport then
    match s.adapter.tempClauseBuffers with
    | [] => .ok s
    | (clauses, checksum) :: buffers =>
        (doDigest s clauses checksum).map fun s => { s with adapter.tempClauseBuffers := buffers }
  else .ok s

def returnNext (s : State) : State :=
  if !s.hsm.doReturnClauses && !s.hsm.didReturnClauses then
    match s.adapter.tempReturnedClauses with
    | [] => s
    | clauses :: buffers => { doReturnClauses s clauses with adapter.tempReturnedClauses := buffers }
  else s

def check (s : State) : Except Fault State := (digestNext (publishRevision (takeBack s))).map returnNext

def awaitsRevision (s : State) : Bool :=
  (s.hsm.doStartNextRevision && !s.hsm.didStartNextRevision) ||
    s.process.lastImportedRevision < s.process.desiredRevision

/-- The last line of the loop of importRevisions, which stands after it again. -/
def resetStart (s : State) : State :=
  if !s.hsm.doStartNextRevision then { s with hsm.didStartNextRevision := false } else s

def importRevision (s : State) : State :=
  resetStart (if s.hsm.doStartNextRevision && !s.hsm.didStartNextRevision then
    { s with
      hsm := { s.hsm with didStartNextRevision := true }
      process := { s.process with
        desiredRevision := s.hsm.desiredRevision
        lastImportedRevision := s.process.lastImportedRevision + 1 } }
  else s)

def importClauses (s : State) : State :=
  let s := if s.hsm.doImport && !s.hsm.didImport && s.hsm.importBufferRevision ≤ s.process.lastImportedRevision then
    { s with
      hsm := { s.hsm with didImport := true }
      process := { s.process with
        digestSharing := s.process.digestSharing ++
          [(s.hsm.importBuffer.take s.hsm.importBufferSize, s.hsm.importChecksum)] } }
  else s
  if !s.hsm.doImport then { s with hsm.didImport := false } else s

def reinsertClauses (s : State) : State :=
  let s := if s.hsm.doReturnClauses && !s.hsm.didReturnClauses then
    { s with
      hsm := { s.hsm with didReturnClauses := true }
      process := { s.process with
        returnClauses := s.process.returnClauses ++
          [(s.hsm.returnedBuffer.take s.hsm.returnedBufferSize, s.hsm.returnedBufferSize)] } }
  else s
  if !s.hsm.doReturnClauses then { s with hsm.didReturnClauses := false } else s

/-- An iteration of the main loop of the child, up to the point where it waits
for a revision. -/
def iteration (s : State) : State :=
  let s := if awaitsRevision s then importRevision s else s
  if awaitsRevision s then s else reinsertClauses (importClauses (resetStart s))

inductive Call
  | digestClauses (clauses : List Int) (checksum : Checksum)
  | returnClauses (clauses : List Int)
  | appendRevisions (revisions : List Int) (desiredRevision : Int)
  | writeRevision
  | check
  | iteration

def step (s : State) : Call → Except Fault State
  | .digestClauses clauses checksum => digestClauses s clauses checksum
  | .returnClauses clauses => .ok (returnClauses s clauses)
  | .appendRevisions revisions desiredRevision => .ok (appendRevisions s revisions desiredRevision)
  | .writeRevision => .ok (writeRevision s)
  | .check => check s
  | .iteration => .ok (iteration s)

end Mallob.HordeProcess
