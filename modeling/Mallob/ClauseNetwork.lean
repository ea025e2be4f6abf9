import Mallob.Checksum
import Mallob.HeldClauses

namespace Mallob.Sharing.ClauseNetwork

open GatheredClauses (Communicator Job ownBuffer startsMerge getMergedClauseBuffer handleGather
  initiateMergeOfClauseBuffers canSendClauses_cases)

def MSG_GATHER_CLAUSES : Int := 417

def MSG_DISTRIBUTE_CLAUSES : Int := 418

structure JobMessage where
  jobId : Int
  revision : Int
  tag : Int
  epoch : Int
  checksum : Checksum
  payload : List Int
deriving DecidableEq

structure Packet where
  source : Nat
  dest : Nat
  message : JobMessage
deriving DecidableEq

/-- The job that the clauses are about, the options of its communicators, and the limit on a merged buffer. -/
structure Options where
  jobId : Int
  useChecksums : Bool
  maxLbdPartitionedSize : Nat
  getBufferLimit : Int → Nat

structure View where
  active : Bool
  initialized : Bool
  revision : Int
  isRoot : Bool
  parentRank : Nat
  leftChild : Option Nat
  rightChild : Option Nat
  commSize : Int
  prepared : Option (List Int × Checksum)

def View.children (v : View) : List Nat := v.leftChild.toList ++ v.rightChild.toList

def checksumOf (jobId : Int) (payload : List Int) : Checksum := payload.foldl Checksum.combine (Checksum.combine {} jobId)

def View.job (o : Options) (v : View) : Job where
  active := v.active
  initialized := v.initialized
  prepared := v.prepared.map Prod.fst
  checksumOk := !o.useChecksums || v.prepared.all fun b => (checksumOf o.jobId b.1).val = b.2.val
  numChildren := v.children.length
  commSize := v.commSize

/-- The communicator of a rank, and the buffers that its solvers have been given to digest. The broadcasts that it
has heard of are not part of the program. -/
structure Node where
  comm : Communicator := {}
  digested : List (List Int × Checksum) := []
  heard : List (Int × List Int) := []

inductive Fault
  | emptyPayload
  | communicator (fault : GatheredClauses.Fault)
deriving DecidableEq

def setChecksum (o : Options) (m : JobMessage) : JobMessage :=
  if o.useChecksums then { m with checksum := checksumOf m.jobId m.payload } else m

def distributeMessage (o : Options) (revision epoch : Int) (clauses : List Int) : JobMessage :=
  setChecksum o ⟨o.jobId, revision, MSG_DISTRIBUTE_CLAUSES, epoch, {}, clauses⟩

def gatherMessage (o : Options) (revision : Int) (clauses : List Int) (numAggregatedNodes : Int) : JobMessage :=
  setChecksum o ⟨o.jobId, revision, MSG_GATHER_CLAUSES, 0, {}, clauses ++ [numAggregatedNodes]⟩

def sendClausesToChildren (o : Options) (rank : Nat) (x : Node) (v : View) (clauses : List Int) : List Packet :=
  v.children.map fun child => ⟨rank, child, distributeMessage o v.revision x.comm.currentEpoch clauses⟩

def learnClauses (o : Options) (x : Node) (v : View) (clauses : List Int) : Node :=
  if clauses ≠ [] ∧ v.active = true ∧ v.initialized = true then
    { x with digested := x.digested ++ [(clauses, if o.useChecksums then checksumOf o.jobId clauses else {})] }
  else x

def broadcastAndLearn (o : Options) (rank : Nat) (x : Node) (v : View) (clauses : List Int) : Node × List Packet :=
  (learnClauses o { x with heard := x.heard ++ [(x.comm.currentEpoch, clauses)] } v clauses,
    sendClausesToChildren o rank x v clauses)

/-- A message is not for a job that is not active, is stray, comes from a later revision or is corrupted. -/
def accepts (o : Options) (v : View) (m : JobMessage) : Bool :=
  v.active && decide (m.jobId = o.jobId) && decide (m.revision ≤ v.revision) &&
    (!o.useChecksums || decide ((checksumOf m.jobId m.payload).val = m.checksum.val))

/-- The handler without the clause history: the messages that send clauses of earlier epochs, subscribe or unsubscribe
have no branch here, and what is distributed is not entered into a history. -/
def handle (o : Options) (rank : Nat) (x : Node) (v : View) (m : JobMessage) : Except Fault (Node × List Packet) :=
  if !accepts o v m then .ok (x, [])
  else if m.tag = MSG_GATHER_CLAUSES then
    match m.payload.getLast? with
    | none => .error .emptyPayload
    | some numAggregated => .ok ({ x with comm := handleGather x.comm m.payload.dropLast numAggregated }, [])
  else if m.tag = MSG_DISTRIBUTE_CLAUSES then
    .ok (broadcastAndLearn o rank { x with comm.currentEpoch := m.epoch } v m.payload)
  else .ok (x, [])

/-- The root broadcasts the merged clauses, and another rank sends them to its parent. -/
def sendClausesToParent (o : Options) (rank : Nat) (x : Node) (v : View) :
    Except GatheredClauses.Fault (Node × List Packet) :=
  (getMergedClauseBuffer x.comm).map fun (result, comm) =>
    if v.isRoot then
      let out := broadcastAndLearn o rank { x with comm := comm } v result.clauses
      ({ out.1 with comm := { comm with
          broadcast := comm.broadcast ++ [(comm.currentEpoch, result.clauses)]
          currentEpoch := comm.currentEpoch + 1
          numAggregatedNodes := 0 } }, out.2)
    else
      ({ x with comm := { comm with
          sent := comm.sent ++ [⟨result.clauses, comm.numAggregatedNodes, result.contributions, comm.commSize⟩]
          numAggregatedNodes := 0 } },
        [⟨rank, v.parentRank, gatherMessage o v.revision result.clauses comm.numAggregatedNodes⟩])

/-- All ranks with the messages in flight. The buffers that were collected from the solvers and the messages that were
not accepted are not part of the program. -/
structure State where
  nodes : Nat → Node := fun _ => {}
  inFlight : List Packet := []
  collected : List (Nat × List Int) := []
  discarded : List Packet := []

namespace State

def setNode (s : State) (r : Nat) (x : Node) : State := { s with nodes := Function.update s.nodes r x }

def setComm (s : State) (r : Nat) (comm : Communicator) : State := s.setNode r { s.nodes r with comm := comm }

end State

inductive Action
  | canSendClauses (rank : Nat) (view : View)
  | finishMerge (rank : Nat)
  | sendClausesToParent (rank : Nat) (view : View)
  | deliver (i : Nat) (view : View)

def step (o : Options) (s : State) : Action → Except Fault State
  | .canSendClauses r v =>
      match GatheredClauses.canSendClauses o.getBufferLimit (s.nodes r).comm (v.job o) with
      | .error e => .error (.communicator e)
      | .ok (_, comm) => .ok { s.setComm r comm with
          collected := if startsMerge (s.nodes r).comm (v.job o)
            then s.collected ++ [(r, (ownBuffer (v.job o)).clauses)] else s.collected }
  | .finishMerge r =>
      match GatheredClauses.finishMerge o.maxLbdPartitionedSize (s.nodes r).comm with
      | .error e => .error (.communicator e)
      | .ok comm => .ok (s.setComm r comm)
  | .sendClausesToParent r v =>
      match sendClausesToParent o r (s.nodes r) v with
      | .error e => .error (.communicator e)
      | .ok (x, out) => .ok { s.setNode r x with inFlight := s.inFlight ++ out }
  | .deliver i v =>
      match s.inFlight[i]? with
      | none => .ok s
      | some m =>
          match handle o m.dest (s.nodes m.dest) v m.message with
          | .error e => .error e
          | .ok (x, out) => .ok { s.setNode m.dest x with
              inFlight := s.inFlight.eraseIdx i ++ out
              discarded := if accepts o v m.message then s.discarded else s.discarded ++ [m] }

section Sending

variable {o : Options} {rank : Nat} {x x' : Node} {v : View} {out : List Packet} {m : JobMessage}

@[simp] theorem learnClauses_comm (clauses : List Int) : (learnClauses o x v clauses).comm = x.comm := by
  rw [learnClauses]
  split <;> rfl

@[simp] theorem learnClauses_heard (clauses : List Int) : (learnClauses o x v clauses).heard = x.heard := by
  rw [learnClauses]
  split <;> rfl

theorem sendClausesToParent_comm (hok : sendClausesToParent o rank x v = .ok (x', out)) :
    GatheredClauses.sendClausesToParent x.comm v.isRoot = .ok x'.comm := by
  obtain ⟨⟨result, comm⟩, hmerged, heq⟩ := Runs.exists_of_map_eq_ok hok
  rw [GatheredClauses.sendClausesToParent, hmerged]
  cases hroot : v.isRoot with
  | true =>
      rw [hroot] at heq
      cases heq
      rfl
  | false =>
      rw [hroot] at heq
      cases heq
      rfl

/-- Either clauses are merged and broadcast, or they are merged and sent upwards. -/
theorem sendClausesToParent_cases (hok : sendClausesToParent o rank x v = .ok (x', out)) :
    ∃ result comm, getMergedClauseBuffer x.comm = .ok (result, comm) ∧
      ((v.isRoot = true ∧ x'.heard = x.heard ++ [(comm.currentEpoch, result.clauses)] ∧
        x'.digested = (learnClauses o { x with comm := comm } v result.clauses).digested ∧
        x'.comm = { comm with
          broadcast := comm.broadcast ++ [(comm.currentEpoch, result.clauses)]
          currentEpoch := comm.currentEpoch + 1
          numAggregatedNodes := 0 } ∧
        out = v.children.map fun child =>
          ⟨rank, child, distributeMessage o v.revision comm.currentEpoch result.clauses⟩) ∨
      (v.isRoot = false ∧ x'.heard = x.heard ∧ x'.digested = x.digested ∧
        x'.comm = { comm with
          sent := comm.sent ++ [⟨result.clauses, comm.numAggregatedNodes, result.contributions, comm.commSize⟩]
          numAggregatedNodes := 0 } ∧
        out = [⟨rank, v.parentRank, gatherMessage o v.revision result.clauses comm.numAggregatedNodes⟩])) := by
  obtain ⟨⟨result, comm⟩, hmerged, heq⟩ := Runs.exists_of_map_eq_ok hok
  refine ⟨result, comm, hmerged, ?_⟩
  cases hroot : v.isRoot with
  | true =>
      rw [hroot] at heq
      cases heq
      refine Or.inl ⟨rfl, learnClauses_heard _, ?_, rfl, rfl⟩
      simp only [broadcastAndLearn, learnClauses]
      split <;> rfl
  | false =>
      rw [hroot] at heq
      cases heq
      exact Or.inr ⟨rfl, rfl, rfl, rfl, rfl⟩

/-- A message that is accepted brings clauses of a child or a broadcast of the parent. -/
theorem handle_cases (hok : handle o rank x v m = .ok (x', out)) :
    (accepts o v m = false ∧ x' = x ∧ out = []) ∨
    (accepts o v m = true ∧ m.tag = MSG_GATHER_CLAUSES ∧ out = [] ∧ ∃ clauses numAggregated,
      m.payload = clauses ++ [numAggregated] ∧ x' = { x with comm := handleGather x.comm clauses numAggregated }) ∨
    (accepts o v m = true ∧ m.tag = MSG_DISTRIBUTE_CLAUSES ∧
      x' = learnClauses o { x with comm.currentEpoch := m.epoch, heard := x.heard ++ [(m.epoch, m.payload)] } v m.payload ∧
      out = v.children.map fun child => ⟨rank, child, distributeMessage o v.revision m.epoch m.payload⟩) ∨
    (accepts o v m = true ∧ m.tag ≠ MSG_GATHER_CLAUSES ∧ m.tag ≠ MSG_DISTRIBUTE_CLAUSES ∧ x' = x ∧ out = []) := by
  rw [handle] at hok
  cases haccepts : accepts o v m with
  | false =>
      rw [haccepts] at hok
      cases hok
      exact Or.inl ⟨rfl, rfl, rfl⟩
  | true =>
      rw [haccepts, if_neg (by simp)] at hok
      refine Or.inr ?_
      by_cases hgather : m.tag = MSG_GATHER_CLAUSES
      · rw [if_pos hgather] at hok
        cases hlast : m.payload.getLast? with
        | none =>
            rw [hlast] at hok
            cases hok
        | some numAggregated =>
            rw [hlast] at hok
            cases hok
            refine Or.inl ⟨rfl, hgather, rfl, m.payload.dropLast, numAggregated, ?_, rfl⟩
            exact (List.dropLast_append_getLast? _ hlast).symm
      · rw [if_neg hgather] at hok
        refine Or.inr ?_
        by_cases hdistribute : m.tag = MSG_DISTRIBUTE_CLAUSES
        · rw [if_pos hdistribute] at hok
          cases hok
          exact Or.inl ⟨rfl, hdistribute, rfl, rfl⟩
        · rw [if_neg hdistribute] at hok
          cases hok
          exact Or.inr ⟨rfl, hgather, hdistribute, rfl, rfl⟩

end Sending

section Steps

variable {o : Options} {s s' : State}

@[simp] theorem setNode_nodes (s : State) (r : Nat) (x : Node) (r' : Nat) :
    (s.setNode r x).nodes r' = if r' = r then x else s.nodes r' := by
  rw [State.setNode]
  exact Function.update_apply s.nodes r x r'

theorem setComm_self (s : State) (r : Nat) : s.setComm r (s.nodes r).comm = s := by
  rw [State.setComm, State.setNode]
  exact congrArg (fun nodes => { s with nodes := nodes }) (Function.update_eq_self r s.nodes)

/-- What a step can do: nothing, begin a merge with the own clauses, end a merge, send its result, or hand over a
message. -/
theorem step_cases {action : Action} (hok : step o s action = .ok s') :
    s' = s ∨
    (∃ r v comm, action = .canSendClauses r v ∧ startsMerge (s.nodes r).comm (v.job o) = true ∧
      (s.nodes r).comm.clauseBuffersBeingMerged = [] ∧
      initiateMergeOfClauseBuffers o.getBufferLimit (s.nodes r).comm (v.job o) = .ok comm ∧
      s' = { s.setComm r comm with collected := s.collected ++ [(r, (ownBuffer (v.job o)).clauses)] }) ∨
    (∃ r comm, action = .finishMerge r ∧
      GatheredClauses.finishMerge o.maxLbdPartitionedSize (s.nodes r).comm = .ok comm ∧ s' = s.setComm r comm) ∨
    (∃ r v x out, action = .sendClausesToParent r v ∧ sendClausesToParent o r (s.nodes r) v = .ok (x, out) ∧
      s' = { s.setNode r x with inFlight := s.inFlight ++ out }) ∨
    (∃ i v m x out, action = .deliver i v ∧ s.inFlight[i]? = some m ∧
      handle o m.dest (s.nodes m.dest) v m.message = .ok (x, out) ∧
      s' = { s.setNode m.dest x with
        inFlight := s.inFlight.eraseIdx i ++ out
        discarded := if accepts o v m.message then s.discarded else s.discarded ++ [m] }) := by
  cases action with
  | canSendClauses r v =>
      rw [step] at hok
      cases hcan : GatheredClauses.canSendClauses o.getBufferLimit (s.nodes r).comm (v.job o) with
      | error e =>
          rw [hcan] at hok
          cases hok
      | ok result =>
          rw [hcan] at hok
          obtain rfl := Except.ok.inj hok
          rcases canSendClauses_cases hcan with ⟨hnot, hcomm⟩ | ⟨hstarts, hempty, hinitiate⟩
          · rw [hnot, hcomm, setComm_self]
            exact Or.inl rfl
          · rw [hstarts]
            exact Or.inr (Or.inl ⟨r, v, result.2, rfl, hstarts, hempty, hinitiate, rfl⟩)
  | finishMerge r =>
      rw [step] at hok
      cases hfinish : GatheredClauses.finishMerge o.maxLbdPartitionedSize (s.nodes r).comm with
      | error e =>
          rw [hfinish] at hok
          cases hok
      | ok comm =>
          rw [hfinish] at hok
          exact Or.inr (Or.inr (Or.inl ⟨r, comm, rfl, hfinish, (Except.ok.inj hok).symm⟩))
  | sendClausesToParent r v =>
      rw [step] at hok
      cases hsend : sendClausesToParent o r (s.nodes r) v with
      | error e =>
          rw [hsend] at hok
          cases hok
      | ok result =>
          rw [hsend] at hok
          exact Or.inr (Or.inr (Or.inr (Or.inl ⟨r, v, result.1, result.2, rfl, hsend, (Except.ok.inj hok).symm⟩)))
  | deliver i v =>
      rw [step] at hok
      cases hm : s.inFlight[i]? with
      | none =>
          rw [hm] at hok
          exact Or.inl (Except.ok.inj hok).symm
      | some m =>
          rw [hm] at hok
          dsimp only at hok
          cases hhandle : handle o m.dest (s.nodes m.dest) v m.message with
          | error e =>
              rw [hhandle] at hok
              cases hok
          | ok result =>
              rw [hhandle] at hok
              exact Or.inr (Or.inr (Or.inr (Or.inr
                ⟨i, v, m, result.1, result.2, rfl, hm, hhandle, (Except.ok.inj hok).symm⟩)))

end Steps

end Mallob.Sharing.ClauseNetwork
