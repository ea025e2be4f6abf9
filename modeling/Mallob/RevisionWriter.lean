import Mallob.HordeProcess

namespace Mallob.RevisionHandshake

open HordeProcess (awaitsRevision resetStart)

inductive Block
  | fsize
  | asize
  | formulae
  | assumptions
  | checksum
deriving DecidableEq

def blocks : List Block := [.fsize, .asize, .formulae, .assumptions, .checksum]

theorem mem_blocks (block : Block) : block ∈ blocks := by
  cases block <;> decide

inductive Content
  | size (size : Nat)
  | lits (lits : List Int)
  | checksum (checksum : Checksum)
deriving DecidableEq

structure RevisionData where
  revision : Int
  checksum : Checksum := {}
  fLits : List Int
  aLits : List Int
deriving DecidableEq

def RevisionData.content (data : RevisionData) : Block → Content
  | .fsize => .size data.fLits.length
  | .asize => .size data.aLits.length
  | .formulae => .lits data.fLits
  | .assumptions => .lits data.aLits
  | .checksum => .checksum data.checksum

/-- Where the task of the background writer stands. While it writes a revision, the blocks to come are
given. -/
inductive Writer
  | idle
  | looking
  | writing (data : RevisionData) (remaining : List Block)
  | ending
deriving DecidableEq

def Writer.taken : Writer → List RevisionData
  | .writing data _ => [data]
  | _ => []

structure Appended where
  revision : Int
  fLits : List Int
  aLits : List Int
  finalRevisionForNow : Bool
  writtenRevision : Int
deriving DecidableEq

/-- The queue and the blocks that the background writer works on next to the rest of the state, where the
revisions to write are those not written completely. All revisions given so far and the last imported and
the desired revision at each return of importRevisions are recorded. -/
structure State where
  base : HordeProcess.State
  revisionsToWrite : List RevisionData := []
  writer : Writer := .idle
  shmem : Block → Int → Option Content := fun _ _ => none
  checksum : Option Checksum
  given : List RevisionData := []
  appended : List Appended := []
  returned : List (Int × Int) := []

inductive Fault
  | accessMemory
  | checksum
  | check (fault : HordeProcess.Fault)
deriving DecidableEq

def doInitialize (importBufferMaxSize : Nat) (firstrev : Int) (checksum : Option Checksum) : State where
  base := HordeProcess.doInitialize importBufferMaxSize firstrev
  checksum := checksum

def doWriteRevisions (s : State) (locked : Bool) : State :=
  if locked then s
  else match s.writer with
    | .idle => { s with writer := .looking }
    | _ => s

def createSharedMemoryBlock (s : State) (block : Block) (revision : Int) (content : Content) : State :=
  { s with shmem := Function.update s.shmem block (Function.update (s.shmem block) revision (some content)) }

def write (s : State) : State :=
  match s.writer with
  | .idle => s
  | .looking =>
      match s.revisionsToWrite with
      | [] => { s with writer := .ending }
      | data :: revisions => { s with revisionsToWrite := revisions, writer := .writing data blocks }
  | .writing data (block :: remaining) =>
      { createSharedMemoryBlock s block data.revision (data.content block) with writer := .writing data remaining }
  | .writing _ [] => { s with base := HordeProcess.writeRevision s.base, writer := .looking }
  | .ending => { s with writer := .idle }

def appendRevisions (s : State) (revisions : List RevisionData) (desiredRevision : Int) (locked : Bool) : State :=
  doWriteRevisions
    { s with
      base := HordeProcess.appendRevisions s.base (revisions.map RevisionData.revision) desiredRevision
      revisionsToWrite := s.revisionsToWrite ++ revisions
      given := s.given ++ revisions } locked

def check (s : State) (locked : Bool) : Except Fault State :=
  let s := doWriteRevisions s locked
  match HordeProcess.check s.base with
  | .ok base => .ok { s with base := base }
  | .error fault => .error (.check fault)

def accessSize (s : State) (block : Block) (revision : Int) : Except Fault Nat :=
  match s.shmem block revision with
  | some (.size size) => .ok size
  | _ => .error .accessMemory

def accessLits (s : State) (block : Block) (revision : Int) (size : Nat) : Except Fault (List Int) :=
  match s.shmem block revision with
  | some (.lits lits) => .ok (lits.take size)
  | _ => .error .accessMemory

def accessChecksum (s : State) (revision : Int) : Except Fault Checksum :=
  match s.shmem .checksum revision with
  | some (.checksum checksum) => .ok checksum
  | _ => .error .accessMemory

def updateChecksum (s : State) (revision : Int) (fLits : List Int) : Except Fault (Option Checksum) :=
  match s.checksum with
  | none => .ok none
  | some checksum => do
      let local' := fLits.foldl Checksum.combine checksum
      let outside ← accessChecksum s revision
      if 0 < outside.count ∧ local'.val ≠ outside.val then .error .checksum else .ok (some local')

def importRevision (s : State) (revision desiredRevision : Int) : Except Fault State := do
  let fSize ← accessSize s .fsize revision
  let aSize ← accessSize s .asize revision
  let fLits ← accessLits s .formulae revision fSize
  let aLits ← accessLits s .assumptions revision aSize
  let checksum ← updateChecksum s revision fLits
  return { s with
    checksum := checksum
    appended := s.appended ++ [⟨revision, fLits, aLits, revision == desiredRevision, s.base.adapter.writtenRevision⟩] }

def importRevisions (s : State) : Except Fault State := do
  let s ← if s.base.hsm.doStartNextRevision && !s.base.hsm.didStartNextRevision then
    importRevision s (s.base.process.lastImportedRevision + 1) s.base.hsm.desiredRevision
  else .ok s
  return { s with base := HordeProcess.importRevision s.base }

def proceed (s : State) : State :=
  { s with
    base := HordeProcess.reinsertClauses (HordeProcess.importClauses (resetStart s.base))
    returned := s.returned ++ [(s.base.process.lastImportedRevision, s.base.process.desiredRevision)] }

def iteration (s : State) : Except Fault State := do
  let s ← if awaitsRevision s.base then importRevisions s else .ok s
  return if awaitsRevision s.base then s else proceed s

inductive Call
  | appendRevisions (revisions : List RevisionData) (desiredRevision : Int) (locked : Bool)
  | write
  | check (locked : Bool)
  | iteration

def step (s : State) : Call → Except Fault State
  | .appendRevisions revisions desiredRevision locked => .ok (appendRevisions s revisions desiredRevision locked)
  | .write => .ok (write s)
  | .check locked => check s locked
  | .iteration => iteration s

def Permitted (s : State) : Call → Prop
  | .appendRevisions revisions _ _ =>
      revisions.map RevisionData.revision = (List.range' (s.given.length + 1) revisions.length).map Nat.cast
  | _ => True

end Mallob.RevisionHandshake
