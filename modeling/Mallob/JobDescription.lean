import Mallob.AppConfiguration
import Mallob.ByteLayout
import Mallob.Checksum

namespace Mallob

open ByteLayout

abbrev CInt : Type := BitVec (8 * 4)
abbrev CFloat : Type := BitVec (8 * 4)
abbrev SizeT : Type := BitVec (8 * 8)

namespace Application

def code : Application → CInt
  | oneshotSat => 0
  | incrementalSat => 1
  | dummy => 2

def ofCode (code : CInt) : Option Application :=
  if code = 0 then some oneshotSat else if code = 1 then some incrementalSat else if code = 2 then some dummy else none

theorem ofCode_code (application : Application) : ofCode application.code = some application := by
  cases application <;> rfl

end Application

structure Metadata where
  id : CInt := 0
  revision : CInt := -1
  clientRank : CInt := -1
  fSize : SizeT := 0
  aSize : SizeT := 0
  rootRank : CInt := 0
  priority : CFloat := 0x3f800000
  numVars : CInt := -1
  wallclockLimit : CFloat := 0
  cpuLimit : CFloat := 0
  maxDemand : CInt := 0
  application : Application := .oneshotSat
  checksumCount : SizeT := 0
  checksumVal : SizeT := 0
deriving DecidableEq

structure JobDescription extends Metadata where
  useChecksums : Bool := false
  appConfig : AppConfiguration := {}
  dataPerRevision : List (Option (List UInt8)) := []
  preloadedLiterals : List CInt := []
  preloadedAssumptions : List CInt := []

namespace JobDescription

inductive Fault
  | revision
  | null
  | size
  | length
  | bounds
  | configuration (fault : AppConfiguration.Fault)
deriving DecidableEq

def getMetadataSize (d : JobDescription) : Nat := 76 + d.appConfig.getSerializedSize

def getRevisionData (d : JobDescription) (revision : Nat) : Except Fault (List UInt8) :=
  match d.dataPerRevision[revision]? with
  | some (some data) => .ok data
  | some none => .error .null
  | none => .error .revision

def prepared (dataPerRevision : List (Option (List UInt8))) (revision : Nat) : List (Option (List UInt8)) :=
  dataPerRevision ++ List.replicate (revision + 1 - dataPerRevision.length) none

def setRevisionData (d : JobDescription) (revision : Nat) (data : List UInt8) : JobDescription :=
  { d with dataPerRevision := d.dataPerRevision.set revision (some data) }

def beginInitialization (d : JobDescription) (revision : Fin (2 ^ 31)) : Except Fault JobDescription :=
  if d.getMetadataSize < 2 ^ 31 then
    .ok (setRevisionData
      { d with
        revision := BitVec.ofNat (8 * 4) revision
        dataPerRevision := prepared d.dataPerRevision revision
        fSize := 0
        aSize := 0 } revision (List.replicate d.getMetadataSize 0))
  else .error .size

def maxSize : Nat := 2 ^ 63 - 1

def pushInt (d : JobDescription) (lit : CInt) : Except Fault JobDescription := do
  let data ← d.getRevisionData d.revision.toNat
  if data.length + 4 ≤ maxSize then return d.setRevisionData d.revision.toNat (data ++ bytes lit) else .error .length

def combineChecksum (d : JobDescription) (x : Int) : JobDescription :=
  if d.useChecksums then
    let checksum := Checksum.combine ⟨d.checksumCount.toNat, d.checksumVal.toNat⟩ x
    { d with checksumCount := BitVec.ofNat (8 * 8) checksum.count, checksumVal := BitVec.ofNat (8 * 8) checksum.val }
  else d

def addLiteral (d : JobDescription) (lit : CInt) : Except Fault JobDescription := do
  let d ← d.pushInt lit
  return combineChecksum { d with fSize := d.fSize + 1 } lit.toInt

def addAssumption (d : JobDescription) (lit : CInt) : Except Fault JobDescription := do
  let d ← d.pushInt lit
  return combineChecksum { d with aSize := d.aSize + 1 } (-lit).toInt

def metadataBytes (x : Metadata) : List UInt8 :=
  bytes x.id ++ bytes x.revision ++ bytes x.clientRank ++ bytes x.fSize ++ bytes x.aSize ++ bytes x.rootRank ++
    bytes x.priority ++ bytes x.numVars ++ bytes x.wallclockLimit ++ bytes x.cpuLimit ++ bytes x.maxDemand ++
    bytes x.application.code ++ bytes x.checksumCount ++ bytes x.checksumVal

def header (x : Metadata) (config : List UInt8) : List UInt8 :=
  metadataBytes x ++ bytes (BitVec.ofNat (8 * 4) config.length) ++ config

def writeMetadata (d : JobDescription) : Except Fault JobDescription := do
  let data ← d.getRevisionData d.revision.toNat
  let written := header d.toMetadata d.appConfig.serialize
  if written.length ≤ data.length then
    return d.setRevisionData d.revision.toNat (written ++ data.drop written.length)
  else .error .bounds

inductive Call
  | addLiteral (lit : CInt)
  | addAssumption (lit : CInt)
deriving DecidableEq

def add (d : JobDescription) : Call → Except Fault JobDescription
  | .addLiteral lit => d.addLiteral lit
  | .addAssumption lit => d.addAssumption lit

def preloaded (d : JobDescription) : List Call :=
  d.preloadedLiterals.map .addLiteral ++ d.preloadedAssumptions.map .addAssumption

def endInitialization (d : JobDescription) : Except Fault JobDescription := do
  let d ← d.preloaded.foldlM add d
  writeMetadata { d with preloadedLiterals := [], preloadedAssumptions := [] }

def initialization (d : JobDescription) (revision : Fin (2 ^ 31)) (calls : List Call) : Except Fault JobDescription := do
  let d ← d.beginInitialization revision
  let d ← calls.foldlM add d
  d.endInitialization

def readRevisionIndex (serialized : List UInt8) : Except Fault Nat :=
  if 28 ≤ serialized.length then
    let revision : CInt := ofBytes 4 ((serialized.drop 4).take 4)
    if 0 ≤ revision.toInt then .ok revision.toNat else .error .revision
  else .error .bounds

def readMetadata (memory : List UInt8) : Option (Metadata × List UInt8) := do
  let (id, memory) ← read 4 memory
  let (revision, memory) ← read 4 memory
  let (clientRank, memory) ← read 4 memory
  let (fSize, memory) ← read 8 memory
  let (aSize, memory) ← read 8 memory
  let (rootRank, memory) ← read 4 memory
  let (priority, memory) ← read 4 memory
  let (numVars, memory) ← read 4 memory
  let (wallclockLimit, memory) ← read 4 memory
  let (cpuLimit, memory) ← read 4 memory
  let (maxDemand, memory) ← read 4 memory
  let (code, memory) ← read 4 memory
  let application ← Application.ofCode code
  let (checksumCount, memory) ← read 8 memory
  let (checksumVal, memory) ← read 8 memory
  return (⟨id, revision, clientRank, fSize, aSize, rootRank, priority, numVars, wallclockLimit, cpuLimit, maxDemand,
    application, checksumCount, checksumVal⟩, memory)

def readHeader (memory : List UInt8) : Option (Metadata × List UInt8) := do
  let (metadata, memory) ← readMetadata memory
  let (size, memory) ← read 4 memory
  if size.toNat ≤ memory.length then return (metadata, memory.take size.toNat) else none

def load (d : JobDescription) : Except Fault JobDescription :=
  match d.dataPerRevision.getLast? with
  | some (some latestData) =>
      match readHeader latestData with
      | none => .error .bounds
      | some (metadata, configSerialized) =>
          match AppConfiguration.deserialize configSerialized with
          | .ok config => .ok { d with toMetadata := metadata, appConfig := config }
          | .error fault => .error (.configuration fault)
  | _ => .error .null

def deserialize (d : JobDescription) (packed : List UInt8) : Except Fault JobDescription := do
  let revision ← readRevisionIndex packed
  load (setRevisionData { d with dataPerRevision := prepared d.dataPerRevision revision } revision packed)

def getFormulaPayloadSize (d : JobDescription) (revision : Nat) : Except Fault Nat := do
  let data ← d.getRevisionData revision
  match read 8 (data.drop 12) with
  | some (fSize, _) => return fSize.toNat
  | none => .error .bounds

def getAssumptionsSize (d : JobDescription) (revision : Nat) : Except Fault Nat := do
  let data ← d.getRevisionData revision
  match read 8 (data.drop 20) with
  | some (aSize, _) => return aSize.toNat
  | none => .error .bounds

def readPayload (d : JobDescription) (revision pos count : Nat) : Except Fault (List CInt) := do
  let data ← d.getRevisionData revision
  match readArray 4 count (data.drop pos) with
  | some lits => return lits
  | none => .error .bounds

def getFormulaPayload (d : JobDescription) (revision : Nat) : Except Fault (List CInt) := do
  let fSize ← d.getFormulaPayloadSize revision
  d.readPayload revision d.getMetadataSize fSize

def getAssumptionsPayload (d : JobDescription) (revision : Nat) : Except Fault (List CInt) := do
  let fSize ← d.getFormulaPayloadSize revision
  let aSize ← d.getAssumptionsSize revision
  d.readPayload revision (d.getMetadataSize + 4 * fSize) aSize

end JobDescription

end Mallob
