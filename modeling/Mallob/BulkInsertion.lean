import Mallob.StoredClauses

namespace Mallob.Sharing

structure SolvingStatistics where
  receivedClausesInserted : Nat := 0
  receivedClausesFiltered : Nat := 0
  deferredClauses : Nat := 0
  discardedClauses : Nat := 0
deriving DecidableEq

def SolvingStatistics.total (stats : SolvingStatistics) : Nat :=
  stats.receivedClausesInserted + stats.receivedClausesFiltered + stats.deferredClauses + stats.discardedClauses

inductive BulkEvent where
  | evaluated (pos : Nat) (verdict : Bool)
  | inserted (pos : Nat)
  | deferred (pos : Nat)
  | discarded (pos : Nat)
deriving DecidableEq

abbrev Conditional (κ : Type) := κ → Clause → Bool × κ

/-- The clauses that the pointer has not passed yet, with their positions, and what happened so far. -/
structure BulkState (κ : Type) where
  cPtr : List (Clause × Nat)
  isClauseAdmitted : Bool := false
  filter : κ
  deferred : List Clause
  stats : SolvingStatistics
  events : List BulkEvent := []

namespace BulkState

variable {κ : Type}

def start (clauses deferredOut : List Clause) (stats : SolvingStatistics) (filter : κ) : BulkState κ where
  cPtr := clauses.zipIdx
  filter := filter
  deferred := deferredOut
  stats := stats

def evaluate (conditional : Conditional κ) (c : Clause) (pos : Nat) (s : BulkState κ) : Bool × BulkState κ :=
  ((conditional s.filter c).1, { s with
    filter := (conditional s.filter c).2
    events := s.events ++ [.evaluated pos (conditional s.filter c).1] })

def countFiltered (s : BulkState κ) : BulkState κ :=
  { s with stats.receivedClausesFiltered := s.stats.receivedClausesFiltered + 1 }

def defer (c : Clause) (pos : Nat) (s : BulkState κ) : BulkState κ :=
  { s with
    deferred := s.deferred ++ [c]
    stats.deferredClauses := s.stats.deferredClauses + 1
    events := s.events ++ [.deferred pos] }

def discard (pos : Nat) (s : BulkState κ) : BulkState κ :=
  { s with
    stats.discardedClauses := s.stats.discardedClauses + 1
    events := s.events ++ [.discarded pos] }

end BulkState

namespace ClauseSlot

variable {κ : Type}

/-- The loop over the clauses at a chunk: whether it has met a clause of another slot, and the number of
clauses that the chunk has taken. -/
def fillChunk (slot : ClauseSlot) (conditional : Conditional κ) :
    List (Clause × Nat) → RingBuffer → Nat → BulkState κ → Except DatabaseFault (Bool × RingBuffer × Nat × BulkState κ)
  | [], b, numInserted, s => .ok (false, b, numInserted, { s with cPtr := [] })
  | (c, pos) :: rest, b, numInserted, s =>
      if 0 ∈ c.lits then .error .zeroLiteral
      else if ¬slot.isClauseCompatible c then .ok (true, b, numInserted, { s with cPtr := (c, pos) :: rest })
      else
        match s.evaluate conditional c pos with
        | (false, s) => slot.fillChunk conditional rest b numInserted s.countFiltered
        | (true, s) =>
            match slot.insertClause b c with
            | .error e => .error e
            | .ok none => .ok (false, b, numInserted, { s with isClauseAdmitted := true, cPtr := (c, pos) :: rest })
            | .ok (some b') =>
                slot.fillChunk conditional rest b' (numInserted + 1)
                  { s with isClauseAdmitted := false, events := s.events ++ [.inserted pos] }

def bulkInserter (slot : ClauseSlot) (conditional : Conditional κ) : Inserter (BulkState κ) := fun chunk s =>
  match chunk.data with
  | none => .error .nullChunk
  | some b => do
      let (finished, b', numInserted, s') ← slot.fillChunk conditional s.cPtr b 0 s
      return (finished, { chunk with data := some b', numElems := chunk.numElems + numInserted },
        { s' with stats.receivedClausesInserted := s'.stats.receivedClausesInserted + numInserted })

def treatRest (slot : ClauseSlot) (conditional : Conditional κ) (result : SlotResult) :
    List (Clause × Nat) → BulkState κ → Except DatabaseFault (BulkState κ)
  | [], s => .ok { s with cPtr := [] }
  | (c, pos) :: rest, s =>
      if ¬slot.isClauseCompatible c then .ok { s with cPtr := (c, pos) :: rest }
      else if result = .success then .error .compatibleAfterSuccess
      else
        let (admitted, s) := if s.isClauseAdmitted then (true, s) else s.evaluate conditional c pos
        if admitted then
          if result = .spuriousFail then
            if 0 ∈ c.lits then .error .zeroLiteral
            else slot.treatRest conditional result rest { s.defer c pos with isClauseAdmitted := false }
          else slot.treatRest conditional result rest { s.discard pos with isClauseAdmitted := false }
        else slot.treatRest conditional result rest { s.countFiltered with isClauseAdmitted := false }

end ClauseSlot

namespace AdaptiveClauseDatabase

variable {κ : Type}

def insertBulk (db : AdaptiveClauseDatabase) (slotIdx : Nat) (slot : ClauseSlot) (conditional : Conditional κ)
    (s : BulkState κ) : Except DatabaseFault (AdaptiveClauseDatabase × BulkState κ) := do
  let r ← db.insert slotIdx slot (slot.bulkInserter conditional) { s with isClauseAdmitted := false }
  let s' ← slot.treatRest conditional r.result r.state.cPtr r.state
  return (r.db, s')

def bulkStep (db : AdaptiveClauseDatabase) (conditional : Conditional κ) (c : Clause) (rest : List (Clause × Nat))
    (s : BulkState κ) : Except DatabaseFault (AdaptiveClauseDatabase × BulkState κ) :=
  match db.getSlotIdx c.size c.lbd with
  | none => .ok (db, { s with cPtr := rest })
  | some slotIdx =>
      match db.slots[slotIdx]? with
      | none => .error .indexOutOfRange
      | some slot => db.insertBulk slotIdx slot conditional s

def bulkLoop (conditional : Conditional κ) :
    Nat → AdaptiveClauseDatabase → BulkState κ → Except DatabaseFault (AdaptiveClauseDatabase × BulkState κ)
  | fuel, db, s =>
      match s.cPtr, fuel with
      | [], _ => .ok (db, s)
      | _ :: _, 0 => .error .unfinished
      | (c, _) :: rest, fuel + 1 => do
          let (db', s') ← db.bulkStep conditional c rest s
          bulkLoop conditional fuel db' s'

def bulkAddClauses (db : AdaptiveClauseDatabase) (clauses : List Clause) (deferredOut : List Clause)
    (stats : SolvingStatistics) (conditional : Conditional κ) (filter : κ) :
    Except DatabaseFault (AdaptiveClauseDatabase × BulkState κ) :=
  bulkLoop conditional clauses.length db (.start clauses deferredOut stats filter)

end AdaptiveClauseDatabase

end Mallob.Sharing
