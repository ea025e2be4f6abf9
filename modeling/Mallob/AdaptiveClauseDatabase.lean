import Mallob.BufferMerger
import Mallob.ClauseSlot

namespace Mallob.Sharing

structure AdaptiveClauseDatabase where
  chunkMgr : ChunkManager
  slots : List ClauseSlot
  maxLbdPartitionedSize : Nat
  useChecksum : Bool
deriving DecidableEq

inductive AddClauseResult where
  | success
  | tryLater
  | drop
deriving DecidableEq

namespace AdaptiveClauseDatabase

def createSlots (maxClauseSize maxLbdPartitionedSize chunkSize : Nat) : Nat → BucketLabel → List ClauseSlot
  | 0, _ => []
  | fuel + 1, l =>
      if l.size ≤ maxClauseSize then
        { clauseSize := l.size
          lbdValue := l.lbd
          uniformLbdValues := l.size ≤ maxLbdPartitionedSize
          chunkSize := chunkSize } ::
          createSlots maxClauseSize maxLbdPartitionedSize chunkSize fuel (l.next maxLbdPartitionedSize)
      else []

/-- There are fewer buckets for clauses up to a size than the square of the next size. -/
def new (maxClauseSize maxLbdPartitionedSize baseBufferSize numChunks : Nat) (useChecksum : Bool) :
    AdaptiveClauseDatabase where
  chunkMgr := ChunkManager.new numChunks
  slots := createSlots maxClauseSize maxLbdPartitionedSize baseBufferSize
    ((maxClauseSize + 1) * (maxClauseSize + 1)) {}
  maxLbdPartitionedSize := maxLbdPartitionedSize
  useChecksum := useChecksum

def getSlotIdx (db : AdaptiveClauseDatabase) (clauseSize : Nat) (lbd : Int) : Option Nat :=
  let index := slotPosition db.maxLbdPartitionedSize clauseSize lbd
  if 0 ≤ index ∧ index < db.slots.length then some index.toNat else none

/-- The result of a request for a chunk and its memory, with the chunk itself if it was stolen and the
slot that it was stolen from. -/
structure Sourced where
  result : SlotResult
  data : Option Nat
  db : AdaptiveClauseDatabase
  stolen : Option (Nat × Chunk)

/-- The slots to the right are asked for a chunk, the least important one first. -/
def stealChunk (db : AdaptiveClauseDatabase) (slotIdx : Nat) : Nat → Except DatabaseFault Sourced
  | 0 => .ok ⟨.totalFail, none, db, none⟩
  | i + 1 =>
      if i ≤ slotIdx then .ok ⟨.totalFail, none, db, none⟩
      else
        match db.slots[i]? with
        | none => .error .indexOutOfRange
        | some slot =>
            match slot.releaseChunk with
            | .error e => .error e
            | .ok (.totalFail, _, _) => stealChunk db slotIdx i
            | .ok (result, released, slot') =>
                .ok ⟨result, released.map Prod.fst, { db with slots := db.slots.set i slot' },
                  released.map fun r => (i, r.2)⟩

def chunkSource (db : AdaptiveClauseDatabase) (slotIdx : Nat) : Except DatabaseFault Sourced :=
  match db.chunkMgr.getChunkOrNullptr with
  | .error e => .error e
  | .ok (some chunk, mgr) => .ok ⟨.success, some chunk, { db with chunkMgr := mgr }, none⟩
  | .ok (none, mgr) => stealChunk { db with chunkMgr := mgr } slotIdx db.slots.length

structure Insertion (σ : Type) where
  result : SlotResult
  db : AdaptiveClauseDatabase
  state : σ
  stolen : Option (Nat × Chunk) := none

def setSlot (db : AdaptiveClauseDatabase) (slotIdx : Nat) (slot : ClauseSlot) : AdaptiveClauseDatabase :=
  { db with slots := db.slots.set slotIdx slot }

def insertSecond {σ : Type} (slotIdx : Nat) (slot : ClauseSlot) (inserter : ClauseSlot.Inserter σ) (sourced : Sourced)
    (s : σ) : Except DatabaseFault (Insertion σ) :=
  match sourced.data.bind slot.addChunk, sourced.data with
  | none, none => .error .nullChunk
  | none, some data =>
      match sourced.db.chunkMgr.insertChunk data with
      | .error e => .error e
      | .ok mgr => .ok ⟨.spuriousFail, { sourced.db with chunkMgr := mgr }, s, sourced.stolen⟩
  | some slot', _ =>
      match slot'.tryChunks inserter s with
      | .error e => .error e
      | .ok second =>
          .ok ⟨if second.finished then .success else if second.someChunkBusy then .spuriousFail else .totalFail,
            sourced.db.setSlot slotIdx { slot' with chunks := second.chunks }, second.state, sourced.stolen⟩

def insert {σ : Type} (db : AdaptiveClauseDatabase) (slotIdx : Nat) (slot : ClauseSlot)
    (inserter : ClauseSlot.Inserter σ) (s : σ) : Except DatabaseFault (Insertion σ) :=
  match slot.tryChunks inserter s with
  | .error e => .error e
  | .ok first =>
      let slot := { slot with chunks := first.chunks }
      let db := db.setSlot slotIdx slot
      if first.finished then .ok { result := .success, db := db, state := first.state }
      else if first.someChunkBusy ∨ slot.acquiringChunk then
        .ok { result := .spuriousFail, db := db, state := first.state }
      else
        match db.chunkSource slotIdx with
        | .error e => .error e
        | .ok sourced =>
            if sourced.result = .success then insertSecond slotIdx slot inserter sourced first.state
            else .ok { result := sourced.result, db := sourced.db, state := first.state }

def insertClause (db : AdaptiveClauseDatabase) (slotIdx : Nat) (c : Clause) :
    Except DatabaseFault (Insertion Unit) :=
  match db.slots[slotIdx]? with
  | none => .error .indexOutOfRange
  | some slot => db.insert slotIdx slot (slot.insertOne c) ()

def addClauseResult : SlotResult → AddClauseResult
  | .success => .success
  | .spuriousFail => .tryLater
  | .totalFail => .drop

def addClause (db : AdaptiveClauseDatabase) (c : Clause) :
    Except DatabaseFault (AddClauseResult × AdaptiveClauseDatabase) :=
  match db.getSlotIdx c.size c.lbd with
  | none => .ok (.drop, db)
  | some slotIdx => (db.insertClause slotIdx c).map fun i => (addClauseResult i.result, i.db)

def inplaceClauseComparator (left right : List Int) : Bool := compareLits left right = -1

/-- No clause is followed by one that the comparator puts before it. -/
def sortClauses (clauses : List (List Int)) : List (List Int) :=
  clauses.insertionSort fun left right => inplaceClauseComparator right left = false

structure ExportState where
  selection : List Int := [0, 0]
  hash : Nat := 1
  bucket : BucketLabel := {}
  bufIdx : Nat := 0
  lastPushedCounterIdx : Int := -1
  numExportedClauses : Nat := 0
  chunkMgr : ChunkManager
  slots : List ClauseSlot := []

structure ExportOptions where
  sizeLimit : Int
  minClauseLength : Int := -1
  maxClauseLength : Int := -1
  sortClauses : Bool := true

/-- The number of clauses that there is room for, computed with unsigned numbers. -/
def numDesired (sizeLimit : Int) (selectionSize effectiveClsLen : Nat) : Int :=
  if sizeLimit < 0 then -1
  else if sizeLimit < selectionSize then Int.bmod ((sizeLimit - selectionSize + 2 ^ 64) / effectiveClsLen) (2 ^ 32)
  else (sizeLimit - selectionSize) / effectiveClsLen

def sinkChunks (mgr : ChunkManager) (released : List Nat) : Except DatabaseFault ChunkManager :=
  released.foldlM ChunkManager.insertChunk mgr

def exportSlot (useChecksum sort : Bool) (sizeLimit : Int) (effectiveClsLen : Nat) (slot : ClauseSlot)
    (st : ExportState) : Except DatabaseFault (ExportState × ClauseSlot) := do
  let selection := st.selection ++ List.replicate (st.bufIdx - st.lastPushedCounterIdx).toNat 0
  let counterPos := selection.length - 1
  let (received, fetched, slot', released) ←
    slot.getClauses selection (numDesired sizeLimit selection.length effectiveClsLen)
  let counted := fetched.modify counterPos (· + received)
  let clauses := chunksOf effectiveClsLen (counted.drop selection.length)
  let clauses := if sort then sortClauses clauses else clauses
  let mgr ← sinkChunks st.chunkMgr released
  return ({ st with
    selection := counted.take selection.length ++ clauses.flatten
    hash := if useChecksum then combineEntries st.hash clauses else st.hash
    lastPushedCounterIdx := st.bufIdx
    numExportedClauses := st.numExportedClauses + received
    chunkMgr := mgr }, slot')

/-- Behind the end of the selection, the slots are only searched for stale chunks. -/
def searchStale (slot : ClauseSlot) (st : ExportState) : Except DatabaseFault (ExportState × ClauseSlot) := do
  let (_, selection, slot', released) ← slot.getClauses st.selection 0
  let mgr ← sinkChunks st.chunkMgr released
  return ({ st with selection := selection, chunkMgr := mgr }, slot')

def visitSlot (db : AdaptiveClauseDatabase) (options : ExportOptions) (slot : ClauseSlot) (st : ExportState) :
    Except DatabaseFault (ExportState × ClauseSlot) :=
  let effectiveClsLen := effectiveSize db.maxLbdPartitionedSize st.bucket.size
  if options.sizeLimit < 0 ∨ (st.selection.length : Int) < options.sizeLimit then
    if (options.minClauseLength < 0 ∨ options.minClauseLength ≤ st.bucket.size) ∧
        (options.maxClauseLength < 0 ∨ (st.bucket.size : Int) ≤ options.maxClauseLength) ∧
        (options.sizeLimit < 0 ∨ (st.selection.length + effectiveClsLen : Int) ≤ options.sizeLimit) then
      exportSlot db.useChecksum options.sortClauses options.sizeLimit effectiveClsLen slot st
    else .ok (st, slot)
  else searchStale slot st

def exportSlots (db : AdaptiveClauseDatabase) (options : ExportOptions) :
    List ClauseSlot → ExportState → Except DatabaseFault ExportState
  | [], st => .ok st
  | slot :: slots, st => do
      let (st, slot') ← db.visitSlot options slot st
      db.exportSlots options slots { st with
        bucket := st.bucket.next db.maxLbdPartitionedSize
        bufIdx := st.bufIdx + 1
        slots := st.slots ++ [slot'] }

def exportBuffer (db : AdaptiveClauseDatabase) (options : ExportOptions) :
    Except DatabaseFault (List Int × Nat × AdaptiveClauseDatabase) := do
  let st ← db.exportSlots options db.slots { chunkMgr := db.chunkMgr }
  return (writeChecksum st.hash (removeTrailingZeroes st.selection), st.numExportedClauses,
    { db with chunkMgr := st.chunkMgr, slots := st.slots })

end AdaptiveClauseDatabase

end Mallob.Sharing
