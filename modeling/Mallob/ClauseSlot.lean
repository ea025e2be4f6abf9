import Mallob.RingBuffer
import Mallob.ChunkManager

namespace Mallob.Sharing

inductive ChunkState where
  | sentinel
  | invalid
  | inCreation
  | inDeletion
  | valid (users : Nat)
deriving DecidableEq

def ChunkState.busy : ChunkState → Bool
  | .valid (_ + 1) => true
  | _ => false

structure Chunk where
  data : Option RingBuffer := none
  state : ChunkState := .invalid
  unusedCounter : Nat := 0
  numElems : Int := 0
deriving DecidableEq

inductive SlotResult where
  | success
  | spuriousFail
  | totalFail
deriving DecidableEq

namespace Chunk

def switchState (chunk : Chunk) (stateFrom stateTo : ChunkState) : Option Chunk :=
  if chunk.state = stateFrom then some { chunk with state := stateTo } else none

def enter (chunk : Chunk) : Option Chunk :=
  match chunk.state with
  | .valid users => some { chunk with state := .valid (users + 1) }
  | _ => none

def leave (chunk : Chunk) : Chunk :=
  match chunk.state with
  | .valid (users + 1) => { chunk with state := .valid users }
  | _ => chunk

end Chunk

structure ClauseSlot where
  clauseSize : Nat
  lbdValue : Nat
  uniformLbdValues : Bool
  chunkSize : Nat
  numChunks : Int := 0
  chunks : List Chunk := [{ state := .sentinel }, { state := .sentinel }]
  acquiringChunk : Bool := false
  modifyingListEnd : Bool := false
deriving DecidableEq

namespace ClauseSlot

def entrySize (slot : ClauseSlot) : Nat := slot.clauseSize + if slot.uniformLbdValues then 0 else 1

def clauseCapacityPerChunk (slot : ClauseSlot) : Nat := slot.chunkSize / slot.entrySize

def isFull (slot : ClauseSlot) (chunk : Chunk) : Bool := slot.clauseCapacityPerChunk ≤ chunk.numElems

def isEmpty (chunk : Chunk) : Bool := chunk.numElems ≤ 0

def allocateBuffer (slot : ClauseSlot) (data : Nat) : RingBuffer := RingBuffer.new slot.chunkSize data

def isClauseCompatible (slot : ClauseSlot) (c : Clause) : Bool :=
  c.size = slot.clauseSize && (!slot.uniformLbdValues || c.lbd = slot.lbdValue)

def insertClause (slot : ClauseSlot) (b : RingBuffer) (c : Clause) : Except DatabaseFault (Option RingBuffer) :=
  if c.size ≠ slot.clauseSize then .error .sizeMismatch
  else .ok (b.produce c.lits (if slot.uniformLbdValues then 0 else c.lbd))

/-- What is done with a chunk that can be accessed: it says whether the insertion is finished. -/
abbrev Inserter (σ : Type) := Chunk → σ → Except DatabaseFault (Bool × Chunk × σ)

def insertOne (slot : ClauseSlot) (c : Clause) : Inserter Unit := fun chunk _ =>
  match chunk.data with
  | none => .error .nullChunk
  | some b => do
      match ← slot.insertClause b c with
      | none => return (false, chunk, ())
      | some b' => return (true, { chunk with data := some b', numElems := chunk.numElems + 1 }, ())

/-- A valid chunk takes the place of the invalid one that was seen first, and the other way round. -/
def swapInvalid (seen : List Chunk) (firstSeenInvalidChunk : Option Nat) (chunk : Chunk) :
    List Chunk × Chunk × Option Nat :=
  match firstSeenInvalidChunk with
  | none => (seen, chunk, none)
  | some k =>
      match seen[k]? with
      | none => (seen, chunk, some k)
      | some invalid =>
          if chunk.state = .valid 0 ∧ invalid.state = .invalid then (seen.set k chunk, invalid, none)
          else (seen, chunk, some k)

structure Sweep (σ : Type) where
  finished : Bool
  someChunkBusy : Bool
  chunks : List Chunk
  state : σ

def sweep {σ : Type} (slot : ClauseSlot) (inserter : Inserter σ) : List Chunk → Option Nat → Bool → List Chunk → σ →
    Except DatabaseFault (Sweep σ)
  | seen, _, someChunkBusy, [], s => .ok ⟨false, someChunkBusy, seen, s⟩
  | seen, firstSeenInvalidChunk, someChunkBusy, chunk :: rest, s =>
      if chunk.state = .sentinel then .ok ⟨false, someChunkBusy, seen ++ chunk :: rest, s⟩
      else if slot.isFull chunk then
        sweep slot inserter (seen ++ [chunk]) firstSeenInvalidChunk someChunkBusy rest s
      else
        match chunk.enter with
        | none =>
            sweep slot inserter (seen ++ [chunk])
              (if firstSeenInvalidChunk.isNone ∧ chunk.state = .invalid then some seen.length
                else firstSeenInvalidChunk)
              (someChunkBusy || chunk.state ≠ .invalid) rest s
        | some entered =>
            match inserter entered s with
            | .error e => .error e
            | .ok (finished, inserted, s') =>
                let swapped := swapInvalid seen firstSeenInvalidChunk inserted.leave
                if finished then .ok ⟨true, someChunkBusy, swapped.1 ++ swapped.2.1 :: rest, s'⟩
                else sweep slot inserter (swapped.1 ++ [swapped.2.1]) swapped.2.2 someChunkBusy rest s'

def tryChunks {σ : Type} (slot : ClauseSlot) (inserter : Inserter σ) (s : σ) : Except DatabaseFault (Sweep σ) :=
  slot.sweep inserter (slot.chunks.take 1) none false (slot.chunks.drop 1) s

def reuseCell (buffer : RingBuffer) : List Chunk → Option (List Chunk)
  | [] => none
  | chunk :: rest =>
      if chunk.state = .sentinel then none
      else
        match chunk.switchState .invalid .inCreation with
        | none => (reuseCell buffer rest).map (chunk :: ·)
        | some created => some ({ created with data := some buffer, numElems := 0, state := .valid 0 } :: rest)

/-- The chunk is appended behind the sentinel, with which it is then swapped. -/
def swapLast : List Chunk → List Chunk
  | [sentinel, chunk] => [chunk, sentinel]
  | [] => []
  | chunk :: rest => chunk :: swapLast rest

def appendAndUpdateIterators (slot : ClauseSlot) (data : Nat) : Option ClauseSlot :=
  if slot.modifyingListEnd then none
  else some { slot with
    chunks := swapLast (slot.chunks ++ [{ data := some (slot.allocateBuffer data), state := .valid 0 }])
    numChunks := slot.numChunks + 1 }

def addChunk (slot : ClauseSlot) (data : Nat) : Option ClauseSlot :=
  match reuseCell (slot.allocateBuffer data) (slot.chunks.drop 1) with
  | some chunks => some { slot with chunks := slot.chunks.take 1 ++ chunks, numChunks := slot.numChunks + 1 }
  | none => slot.appendAndUpdateIterators data

/-- The last valid chunk is released. The list is given from the back; the released chunk and the list
without it are returned, or else whether some chunk was busy. -/
def releaseLast : List Chunk → Bool → Except Bool (Chunk × List Chunk)
  | [], someChunkBusy => .error someChunkBusy
  | chunk :: rest, someChunkBusy =>
      if chunk.state = .sentinel then .error someChunkBusy
      else
        match chunk.switchState (.valid 0) .inDeletion with
        | some _ => .ok (chunk, { chunk with data := none, numElems := 0, state := .invalid } :: rest)
        | none =>
            (releaseLast rest (someChunkBusy || chunk.state.busy)).map
              fun released => (released.1, chunk :: released.2)

def releaseChunk (slot : ClauseSlot) : Except DatabaseFault (SlotResult × Option (Nat × Chunk) × ClauseSlot) :=
  if slot.numChunks ≤ 0 then .ok (.totalFail, none, slot)
  else
    match releaseLast (slot.chunks.reverse.drop 1) false with
    | .error someChunkBusy => .ok (if someChunkBusy then .spuriousFail else .totalFail, none, slot)
    | .ok (chunk, chunks) =>
        match chunk.data with
        | none => .error .nullChunk
        | some b => .ok (.success, some (b.memory, chunk), { slot with
            chunks := (slot.chunks.reverse.take 1 ++ chunks).reverse
            numChunks := slot.numChunks - 1 })

def takeClauses (slot : ClauseSlot) (maxNumClauses : Int) :
    Nat → RingBuffer → Nat → List Int → Except DatabaseFault (RingBuffer × Nat × List Int)
  | 0, _, _, _ => .error .unfinished
  | fuel + 1, b, received, selection =>
      if maxNumClauses < 0 ∨ (received : Int) < maxNumClauses then
        match b.consume slot.entrySize with
        | (none, b') => .ok (b', received, selection)
        | (some ints, b') =>
            if 0 ∈ ints.drop (ints.length - slot.clauseSize) then .error .zeroLiteral
            else takeClauses slot maxNumClauses fuel b' (received + 1) (selection ++ ints)
      else .ok (b, received, selection)

def visitChunk (slot : ClauseSlot) (maxNumClauses : Int) (chunk : Chunk) (received : Nat) (selection : List Int) :
    Except DatabaseFault (Chunk × Nat × List Int) :=
  match chunk.data with
  | none => .error .nullChunk
  | some b =>
      if isEmpty chunk then .ok ({ chunk with unusedCounter := chunk.unusedCounter + 1 }, received, selection)
      else do
        let (b', received', selection') ←
          slot.takeClauses maxNumClauses (b.consumed.length + b.ringbuf.data.length + 1) b received selection
        return ({ chunk with
          data := some b'
          numElems := chunk.numElems - (received' - received : Nat)
          unusedCounter := if received < received' then 0 else chunk.unusedCounter }, received', selection')

structure Fetched where
  chunks : List Chunk
  numChunks : Int
  received : Nat
  selection : List Int
  released : List Nat

def removeStale (chunk : Chunk) (f : Fetched) : Except DatabaseFault Fetched :=
  match chunk.switchState (.valid 0) .inDeletion, chunk.data with
  | none, _ => .ok { f with chunks := chunk :: f.chunks }
  | some _, none => .error .nullChunk
  | some deleted, some b => .ok { f with
      chunks := { deleted with data := none, unusedCounter := 0, state := .invalid } :: f.chunks
      numChunks := f.numChunks - 1
      released := f.released ++ [b.memory] }

def settleChunk (chunk : Chunk) (f : Fetched) : Except DatabaseFault Fetched :=
  if 5 ≤ chunk.unusedCounter then removeStale chunk.leave f else .ok { f with chunks := chunk.leave :: f.chunks }

/-- The chunks are visited from the back up to the sentinel. The list is given from the back. -/
def fetchChunks (slot : ClauseSlot) (maxNumClauses : Int) : List Chunk → Fetched → Except DatabaseFault Fetched
  | [], f => .ok f
  | chunk :: rest, f =>
      if chunk.state = .sentinel then .ok { f with chunks := rest.reverse ++ chunk :: f.chunks }
      else
        match chunk.enter with
        | none => fetchChunks slot maxNumClauses rest { f with chunks := chunk :: f.chunks }
        | some entered =>
            match slot.visitChunk maxNumClauses entered f.received f.selection with
            | .error e => .error e
            | .ok (visited, received, selection) =>
                (settleChunk visited { f with received := received, selection := selection }).bind
                  fun f' => fetchChunks slot maxNumClauses rest f'

def getClauses (slot : ClauseSlot) (selection : List Int) (maxNumClauses : Int) :
    Except DatabaseFault (Nat × List Int × ClauseSlot × List Nat) := do
  let f ← slot.fetchChunks maxNumClauses (slot.chunks.reverse.drop 1)
    ⟨slot.chunks.reverse.take 1, slot.numChunks, 0, selection, []⟩
  return (f.received, f.selection, { slot with chunks := f.chunks, numChunks := f.numChunks }, f.released)

end ClauseSlot

end Mallob.Sharing
