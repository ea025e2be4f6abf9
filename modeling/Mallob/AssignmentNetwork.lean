import Mallob.RequestConservation
import Mallob.Runs

namespace Mallob.AssignmentNetwork

open CollectiveAssignment RequestConservation JobRequest Runs

inductive Message
  | status (epoch numIdle : Int)
  | requests (requests : List JobRequest)

def Message.carried : Message → List JobRequest
  | .status _ _ => []
  | .requests reqs => reqs

structure Transit where
  source : Int
  dest : Int
  message : Message

structure Node (σ : Type) where
  ca : CollectiveAssignment
  statusDirty : Bool
  env : σ

/-- An iteration over the requests that does not end within the fuel, or a rank that does not exist. -/
inductive Fault
  | unfinished
  | noSuchRank
deriving DecidableEq, Repr

variable {σ : Type} {n : Nat}

namespace Node

def enterEpoch (x : Node σ) (epoch : Int) : Node σ :=
  { x with ca := { x.ca with epoch := epoch, childStatuses := [] }, statusDirty := true }

def setStatus (source numIdle : Int) : List (Int × Int) → List (Int × Int)
  | [] => [(source, numIdle)]
  | c :: rest => if c.1 = source then (source, numIdle) :: rest else c :: setStatus source numIdle rest

def receiveRequest (ca : CollectiveAssignment) (req : JobRequest) : CollectiveAssignment :=
  if req.balancingEpoch ≥ ca.epoch ∨ req.requestedNodeIndex = 0 then
    { ca with requestList := ca.requestList.insert { req with numHops := req.numHops + 1 } }
  else ca

def deserialize (x : Node σ) (source : Int) : Message → Node σ
  | .status epoch numIdle =>
      if epoch < x.ca.epoch then x
      else
        let x := if epoch > x.ca.epoch then x.enterEpoch epoch else x
        { x with ca := { x.ca with childStatuses := setStatus source numIdle x.ca.childStatuses }, statusDirty := true }
  | .requests reqs => { x with ca := reqs.foldl receiveRequest x.ca }

def getAggregatedStatus (w : LocalWorker σ) (ca : CollectiveAssignment) (env : σ) : Int :=
  (if w.isIdle env then 1 else 0) + (ca.childStatuses.map Prod.snd).sum

/-- The requests are resolved, and the status goes to the parent if it has changed. The callback of the requests may
have told that it has. -/
def advance (w : LocalWorker σ) (x : Node σ) (epoch : Int) (fuel : Nat) (dirtied : Bool) :
    Except Fault (Node σ × List Transit × List JobRequest) :=
  let x := if epoch > x.ca.epoch then x.enterEpoch epoch else x
  match resolveRequests w fuel x.ca x.env with
  | none => .error .unfinished
  | some r =>
      let out := r.requestsPerDestination.map fun d => Transit.mk x.ca.rank d.1 (.requests d.2)
      let status := Transit.mk x.ca.rank (getCurrentParent r.ca)
        (.status r.ca.epoch (getAggregatedStatus w r.ca r.env))
      let propagated := if (x.statusDirty || dirtied) ∧ r.ca.rank ≠ getCurrentRoot r.ca then [status] else []
      .ok (⟨r.ca, false, r.env⟩, out ++ propagated, r.digested)

end Node

/-- The ranks with the updates in flight, which may be delivered in any order. The requests that were added by the
workers and those that were handed to the callbacks are not part of the program. -/
structure State (σ : Type) (n : Nat) where
  nodes : Fin n → Node σ
  inFlight : List Transit := []
  added : List JobRequest := []
  digested : List JobRequest := []

namespace State

def setNode (s : State σ n) (r : Fin n) (x : Node σ) : State σ n := { s with nodes := Function.update s.nodes r x }

end State

inductive Action (σ : Type) (n : Nat)
  | work (r : Fin n) (env : σ) (dirtied : Bool)
  | addJobRequest (r : Fin n) (req : JobRequest)
  | advance (r : Fin n) (epoch : Int) (fuel : Nat) (dirtied : Bool)
  | deliver (i : Nat)

def step (w : LocalWorker σ) (s : State σ n) : Action σ n → Except Fault (State σ n)
  | .work r env dirtied =>
      let x := s.nodes r
      .ok (s.setNode r { x with env := env, statusDirty := x.statusDirty || dirtied })
  | .addJobRequest r req =>
      let x := s.nodes r
      .ok { s.setNode r { x with ca := x.ca.addJobRequest req } with
        added := if isObsolete x.ca.epoch req then s.added else s.added ++ [req] }
  | .advance r epoch fuel dirtied =>
      (Node.advance w (s.nodes r) epoch fuel dirtied).map fun out =>
        { s.setNode r out.1 with inFlight := s.inFlight ++ out.2.1, digested := s.digested ++ out.2.2 }
  | .deliver i =>
      match s.inFlight[i]? with
      | none => .ok s
      | some m =>
          if h : 0 ≤ m.dest ∧ m.dest.toNat < n then
            let r : Fin n := ⟨m.dest.toNat, h.2⟩
            .ok { s.setNode r ((s.nodes r).deserialize m.source m.message) with inFlight := s.inFlight.eraseIdx i }
          else .error .noSuchRank

def start (neighborTowardsRank : Fin n → Nat → Int) (env : Fin n → σ) : State σ n where
  nodes r := ⟨⟨r, n, neighborTowardsRank r, -1, [], OrderedSet.empty⟩, true, env r⟩

end Mallob.AssignmentNetwork
