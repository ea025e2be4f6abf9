import Mallob.Cnf
import Mallob.VariableTranslator

namespace Mallob.SolverThread

/-- What the thread asks of its solver and of the solver's setup. A solver of
the kind that is created for true incremental solving supports it. -/
structure Setup where
  doIncrementalSolving : Bool
  hasPseudoincrementalSolvers : Bool
  supportsIncrementalSat : Bool
  exportsConditionalClauses : Bool
  incremental : doIncrementalSolving = true → supportsIncrementalSat = true

inductive Fault
  | invalidLiteral
  | emptyClause
  | unfinishedClause
  | activeRevision
  | importedLits
  | latestRevision
deriving DecidableEq

/-- The part of the thread that reading a formula changes, with the literals
that were added to the solver, its condition variable and its revision. -/
structure Reader where
  lastReadLitZero : Bool := true
  maxVar : Nat := 0
  vt : VariableTranslator := {}
  added : List Int := []
  currentCondVarOrZero : Nat := 0
  currentRevision : Nat := 0

def maxLiteral : Nat := 134217723

def readLiteral (r : Reader) (lit : Int) : Except Fault Reader :=
  if lit.natAbs > maxLiteral then .error .invalidLiteral
  else if lit = 0 ∧ r.lastReadLitZero then .error .emptyClause
  else .ok { r with
    added := r.added ++ [r.vt.getTldLit lit]
    maxVar := max r.maxVar lit.natAbs
    lastReadLitZero := lit = 0 }

def equivalence (vt : VariableTranslator) (aEquivVar : Nat) (aLits : List Int) : List Int :=
  aLits.map (fun aLit => -vt.getTldLit aLit) ++ [(aEquivVar : Int), 0] ++
    aLits.flatMap fun aLit => [-(aEquivVar : Int), vt.getTldLit aLit, 0]

def introduceExtraVariable (setup : Setup) (r : Reader) (aLits : List Int) : Reader :=
  let vt := r.vt.addExtraVariable r.maxVar
  let aEquivVar := vt.extraVariables.getLast?.getD 0
  { r with
    vt := vt
    currentCondVarOrZero :=
      if setup.exportsConditionalClauses || !setup.doIncrementalSolving then
        if aLits.length > 0 then aEquivVar else 0
      else r.currentCondVarOrZero
    added := if aLits.length > 0 then r.added ++ equivalence vt aEquivVar aLits else r.added }

def closeRevision (setup : Setup) (r : Reader) (activeRevision : Nat) (aLits : List Int) : Reader :=
  let r := { r with maxVar := aLits.foldl (fun maxVar aLit => max maxVar aLit.natAbs) r.maxVar }
  let r := if setup.hasPseudoincrementalSolvers && activeRevision ≥ r.vt.extraVariables.length then
    introduceExtraVariable setup r aLits else r
  { r with currentRevision := activeRevision }

def readRevision (setup : Setup) (r : Reader) (activeRevision : Nat) (fLits aLits : List Int) : Except Fault Reader :=
  (fLits.foldlM readLiteral r).map fun r => closeRevision setup r activeRevision aLits

def readRevisions (setup : Setup) (revisions : List (List Int × List Int)) : Except Fault Reader :=
  revisions.zipIdx.foldlM (fun r revision => readRevision setup r revision.2 revision.1.1 revision.1.2) {}

/-- DefaultSharingManager::processClause: the negated condition variable is
appended to an exported clause. -/
def processClause (condVarOrZero : Nat) (clause : List Int) : List Int :=
  if condVarOrZero ≠ 0 then clause ++ [-(condVarOrZero : Int)] else clause

inductive Shuffled : List Int → List Int → Prop
  | nil : Shuffled [] []
  | clause {c c' lits lits' : List Int} : 0 ∉ c → c.Perm c' → Shuffled lits lits' →
      Shuffled (c ++ 0 :: lits) (c' ++ 0 :: lits')

inductive SatResult
  | unknown
  | sat
  | unsat
deriving DecidableEq

structure SolveCall where
  added : List Int
  assumptions : List Int

structure Result where
  result : SatResult
  revision : Nat
  call : SolveCall

inductive Location
  | unstarted
  | waitWhileSolved
  | waitWhileSuspended
  | shuffle
  | fetch
  | read (fLits aLits : List Int) (batchEnd : Nat)
  | endOfBatch (fLits aLits : List Int)
  | close (fLits aLits : List Int)
  | runOnce
  | addUnits (revision : Nat) (lits : List Int)
  | solve (revision : Nat) (aLits : List Int)
  | uninterrupt (res : SatResult) (revision : Nat) (call : SolveCall)
  | reportResult (res : SatResult) (revision : Nat) (call : SolveCall)
  | storeResult (res : SatResult) (revision : Nat) (call : SolveCall)
  | exited

structure State where
  setup : Setup
  doShuffle : Bool
  pendingFormulae : List (List Int)
  pendingAssumptions : List (List Int)
  latestRevision : Nat := 0
  activeRevision : Nat := 0
  importedLitsCurrRevision : Nat := 0
  reader : Reader := {}
  interrupted : Bool := false
  suspended : Bool := false
  terminated : Bool := false
  foundResult : Bool := false
  result : Option Result := none
  location : Location := .unstarted

def create (setup : Setup) (doShuffle : Bool) (fLits aLits : List Int) : State where
  setup := setup
  doShuffle := doShuffle
  pendingFormulae := [fLits]
  pendingAssumptions := [aLits]

def appendRevision (s : State) (revision : Nat) (fLits aLits : List Int) : Except Fault State :=
  let s := { s with
    pendingFormulae := s.pendingFormulae ++ [fLits]
    pendingAssumptions := s.pendingAssumptions ++ [aLits]
    latestRevision := revision
    foundResult := false }
  if s.latestRevision + 1 = s.pendingFormulae.length then
    .ok (if revision > 0 then { s with interrupted := true } else s)
  else .error .latestRevision

def batchSize : Nat := 100000

def nextBatch (s : State) (fLits aLits : List Int) : State :=
  { s with location :=
      if s.importedLitsCurrRevision < fLits.length then
        .read fLits aLits (min (s.importedLitsCurrRevision + batchSize) fLits.length)
      else .close fLits aLits }

/-- The choices that the thread's next statement leaves open: the order of a
shuffled formula and the answer of the solver. -/
structure Choice where
  shuffled : List Int
  answer : SatResult

/-- The next atomic step of the thread. A wait that goes on changes nothing. -/
def advance (s : State) (choice : Choice) : Except Fault State :=
  match s.location with
  | .unstarted => .ok { s with location := .waitWhileSolved, activeRevision := 0, importedLitsCurrRevision := 0 }
  | .waitWhileSolved => .ok (if s.terminated || !s.foundResult then { s with location := .waitWhileSuspended } else s)
  | .waitWhileSuspended =>
      .ok (if s.terminated then { s with location := .exited }
        else if !s.suspended then { s with location := .shuffle } else s)
  | .shuffle =>
      if s.importedLitsCurrRevision = 0 && s.doShuffle then
        match s.pendingFormulae[s.activeRevision]? with
        | some fLits =>
            if fLits.getLast?.getD 0 = 0 then
              .ok { s with
                pendingFormulae := s.pendingFormulae.set s.activeRevision choice.shuffled
                location := .fetch }
            else .error .unfinishedClause
        | none => .error .activeRevision
      else .ok { s with location := .fetch }
  | .fetch =>
      match s.pendingFormulae[s.activeRevision]?, s.pendingAssumptions[s.activeRevision]? with
      | some fLits, some aLits => .ok (nextBatch s fLits aLits)
      | _, _ => .error .activeRevision
  | .read fLits aLits batchEnd =>
      if s.importedLitsCurrRevision < batchEnd then
        (readLiteral s.reader (fLits.getD s.importedLitsCurrRevision 0)).map fun reader =>
          { s with reader := reader, importedLitsCurrRevision := s.importedLitsCurrRevision + 1 }
      else .ok { s with location := .endOfBatch fLits aLits }
  | .endOfBatch fLits aLits =>
      .ok (if s.terminated then { s with location := .exited }
        else if !s.suspended then nextBatch s fLits aLits else s)
  | .close fLits aLits =>
      if s.importedLitsCurrRevision = fLits.length then
        let s := { s with reader := closeRevision s.setup s.reader s.activeRevision aLits }
        .ok (if s.activeRevision = s.latestRevision then { s with location := .runOnce }
          else { s with
            activeRevision := s.activeRevision + 1
            importedLitsCurrRevision := 0
            location := .shuffle })
      else .error .importedLits
  | .runOnce =>
      if s.suspended then .ok { s with location := .waitWhileSolved }
      else
        let aLits := s.pendingAssumptions.getLast?.getD []
        let tldAssumptions :=
          if s.reader.vt.extraVariables.isEmpty then aLits else aLits.map s.reader.vt.getTldLit
        .ok { s with location :=
          if s.setup.supportsIncrementalSat then .solve s.activeRevision tldAssumptions
          else .addUnits s.activeRevision (Cnf.flat (Cnf.units tldAssumptions)) }
  | .addUnits revision [] => .ok { s with location := .solve revision [] }
  | .addUnits revision (lit :: lits) =>
      .ok { s with reader.added := s.reader.added ++ [lit], location := .addUnits revision lits }
  | .solve revision aLits =>
      .ok { s with location := .uninterrupt choice.answer revision { added := s.reader.added, assumptions := aLits } }
  | .uninterrupt res revision call =>
      .ok { s with interrupted := false, location := .reportResult res revision call }
  | .reportResult res revision call =>
      .ok { s with location :=
        if res = .unknown ∨ s.foundResult then .waitWhileSolved else .storeResult res revision call }
  | .storeResult res revision call =>
      .ok (if revision ≠ s.latestRevision then { s with location := .waitWhileSolved }
        else { s with
          result := some { result := res, revision := revision, call := call }
          foundResult := true
          location := .waitWhileSolved })
  | .exited => .ok s

inductive Call
  | appendRevision (revision : Nat) (fLits aLits : List Int)
  | setSuspend (suspend : Bool)
  | setTerminate
  | advance (choice : Choice)

def step (s : State) : Call → Except Fault State
  | .appendRevision revision fLits aLits => appendRevision s revision fLits aLits
  | .setSuspend suspend => .ok { s with suspended := suspend }
  | .setTerminate => .ok { s with terminated := true }
  | .advance choice => advance s choice

end Mallob.SolverThread
