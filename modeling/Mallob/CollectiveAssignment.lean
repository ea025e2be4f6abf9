import Mallob.AppConfiguration
import Mallob.OrderedSet
import Mallob.VolumeCalculator

namespace Mallob

structure JobRequest where
  jobId : Int
  rootRank : Int
  requestingNodeRank : Int
  requestedNodeIndex : Int
  revision : Int
  timeOfBirth : ℚ
  numHops : Int
  balancingEpoch : Int
  application : Application
deriving DecidableEq, Repr

namespace JobRequest

/-- The operator < of the source, which ignores the hops and the requesting rank. -/
def before (a b : JobRequest) : Bool :=
  if a.balancingEpoch ≠ b.balancingEpoch then a.balancingEpoch < b.balancingEpoch
  else if a.jobId ≠ b.jobId then a.jobId < b.jobId
  else if a.requestedNodeIndex ≠ b.requestedNodeIndex then a.requestedNodeIndex < b.requestedNodeIndex
  else if a.revision ≠ b.revision then a.revision < b.revision
  else false

def key (r : JobRequest) : Int ×ₗ Int ×ₗ Int ×ₗ Int :=
  toLex (r.balancingEpoch, toLex (r.jobId, toLex (r.requestedNodeIndex, r.revision)))

theorem before_iff (a b : JobRequest) : before a b = true ↔ a.key < b.key := by
  simp only [before, key, Prod.Lex.toLex_lt_toLex]
  by_cases he : a.balancingEpoch = b.balancingEpoch
  · by_cases hj : a.jobId = b.jobId
    · by_cases hi : a.requestedNodeIndex = b.requestedNodeIndex
      · by_cases hr : a.revision = b.revision
        · simp [he, hj, hi, hr]
        · simp [he, hj, hi, hr]
      · simp [he, hj, hi]
    · simp [he, hj]
  · simp [he]

instance : Comparator before := .of_key key before_iff

theorem key_eq_of_equivalent {a b : JobRequest} (h : equivalent before a b = true) : a.key = b.key := by
  obtain ⟨hab, hba⟩ := equivalent_iff.mp h
  rw [← Bool.not_eq_true, before_iff, not_lt] at hab hba
  exact le_antisymm hba hab

end JobRequest

inductive Route
  | discard
  | keep
  | send (destination : Int)
  | digest
deriving DecidableEq, Repr

/-- The worker around the assignment: whether it is idle, what its request
callback does, with the requests it passes to addJobRequest meanwhile, and the
source of its random numbers. -/
structure LocalWorker (σ : Type) where
  isIdle : σ → Bool
  localRequestCallback : JobRequest → σ → σ × List JobRequest
  rand : σ → Nat × σ

structure CollectiveAssignment where
  rank : Int
  numWorkers : Nat
  neighborTowardsRank : Nat → Int
  epoch : Int
  childStatuses : List (Int × Int)
  requestList : OrderedSet JobRequest.before

namespace CollectiveAssignment

variable {σ : Type} (w : LocalWorker σ)

def isObsolete (epoch : Int) (req : JobRequest) : Bool :=
  decide (req.balancingEpoch < epoch) && decide (req.requestedNodeIndex > 0)

def getCurrentRoot (ca : CollectiveAssignment) : Nat := VolumeCalculator.hashInt ca.epoch % ca.numWorkers

def getCurrentParent (ca : CollectiveAssignment) : Int := ca.neighborTowardsRank (getCurrentRoot ca)

/-- Random::choice among the children with idle workers. -/
def getDestination (ca : CollectiveAssignment) (env : σ) : Int × σ :=
  if w.isIdle env then (ca.rank, env)
  else
    let viableDestinations := (ca.childStatuses.filter fun c => c.2 > 0).map Prod.fst
    if viableDestinations.isEmpty then (-1, env)
    else
      let r := w.rand env
      (viableDestinations.getD (r.1 % viableDestinations.length) (-1), r.2)

def decrementIdle (childStatuses : List (Int × Int)) (destination : Int) : List (Int × Int) :=
  childStatuses.map fun c => if c.1 = destination then (c.1, c.2 - 1) else c

def route (ca : CollectiveAssignment) (env : σ) (req : JobRequest) : Route × CollectiveAssignment × σ :=
  if isObsolete ca.epoch req then (.discard, ca, env)
  else
    let d := getDestination w ca env
    if d.1 < 0 then
      if (getCurrentRoot ca : Int) = ca.rank then (.keep, ca, d.2) else (.send (getCurrentParent ca), ca, d.2)
    else if d.1 = ca.rank then (.digest, ca, d.2)
    else (.send d.1, { ca with childStatuses := decrementIdle ca.childStatuses d.1 }, d.2)

def addJobRequest (ca : CollectiveAssignment) (req : JobRequest) : CollectiveAssignment :=
  if isObsolete ca.epoch req then ca else { ca with requestList := ca.requestList.insert req }

def pushBack (destination : Int) (req : JobRequest) :
    List (Int × List JobRequest) → List (Int × List JobRequest)
  | [] => [(destination, [req])]
  | (d, reqs) :: rest =>
      if d = destination then (d, reqs ++ [req]) :: rest else (d, reqs) :: pushBack destination req rest

structure Resolving (σ : Type) where
  ca : CollectiveAssignment
  env : σ
  requestsToKeep : List JobRequest
  requestsPerDestination : List (Int × List JobRequest)
  digested : List JobRequest
  added : List JobRequest

def resolveOne (s : Resolving σ) (req : JobRequest) : Resolving σ :=
  match route w s.ca s.env req with
  | (.discard, ca, env) => { s with ca := ca, env := env }
  | (.keep, ca, env) => { s with ca := ca, env := env, requestsToKeep := s.requestsToKeep ++ [req] }
  | (.send destination, ca, env) => { s with
      ca := ca
      env := env
      requestsPerDestination := pushBack destination req s.requestsPerDestination }
  | (.digest, ca, env) =>
      let r := w.localRequestCallback req env
      { s with
        ca := r.2.foldl addJobRequest ca
        env := r.1
        digested := s.digested ++ [req]
        added := s.added ++ r.2 }

/-- The iteration over the set, which may grow meanwhile. -/
def resolveLoop : Nat → Option JobRequest → Resolving σ → Option (Resolving σ)
  | 0, _, _ => none
  | fuel + 1, current, s =>
      match s.ca.requestList.next current with
      | none => some s
      | some req => resolveLoop fuel (some req) (resolveOne w s req)

/-- none is an iteration that does not end. -/
def resolveRequests (fuel : Nat) (ca : CollectiveAssignment) (env : σ) : Option (Resolving σ) :=
  (resolveLoop w fuel none ⟨ca, env, [], [], [], []⟩).map fun s =>
    { s with ca := { s.ca with requestList := OrderedSet.empty.insertAll s.requestsToKeep } }

end CollectiveAssignment

end Mallob
