import Mallob.OrderedSet

namespace Mallob

inductive Status
  | available
  | busy
  | lost
deriving DecidableEq, Repr

structure InactiveJobNode where
  rank : Int
  originalIndex : Nat
  lastEpoch : Int
  status : Status
deriving DecidableEq, Repr

namespace InactiveJobNode

/-- The operator < of the source: newer epochs come first, the status does not
count. -/
def before (a b : InactiveJobNode) : Bool :=
  if a.originalIndex ≠ b.originalIndex then a.originalIndex < b.originalIndex
  else if a.lastEpoch ≠ b.lastEpoch then a.lastEpoch > b.lastEpoch
  else a.rank < b.rank

def key (n : InactiveJobNode) : Nat ×ₗ Intᵒᵈ ×ₗ Int :=
  toLex (n.originalIndex, toLex (OrderDual.toDual n.lastEpoch, n.rank))

theorem before_iff (a b : InactiveJobNode) : before a b = true ↔ a.key < b.key := by
  simp only [before, key, Prod.Lex.toLex_lt_toLex]
  by_cases hi : a.originalIndex = b.originalIndex
  · by_cases he : a.lastEpoch = b.lastEpoch
    · simp [hi, he]
    · simp [hi, he]
  · simp [hi]

instance : Comparator before := .of_key key before_iff

def withStatus (n : InactiveJobNode) (status : Status) : InactiveJobNode := { n with status := status }

end InactiveJobNode

open InactiveJobNode

abbrev InactiveJobNodeList := OrderedSet before

namespace InactiveJobNodeList

/-- A change of statuses, which are mutable inside the set. -/
def setStatuses (nodes : InactiveJobNodeList) (f : InactiveJobNode → Status) : InactiveJobNodeList :=
  nodes.map (fun n => n.withStatus (f n)) fun _ _ => rfl

def duplicates (nodes : List InactiveJobNode) : (Int → Option InactiveJobNode) × List InactiveJobNode :=
  nodes.foldl (fun (nodesByRank, nodesToDelete) node =>
    match nodesByRank node.rank with
    | some otherNode =>
      if node.lastEpoch > otherNode.lastEpoch then
        (Function.update nodesByRank node.rank (some node), nodesToDelete ++ [otherNode])
      else (nodesByRank, nodesToDelete ++ [node])
    | none => (Function.update nodesByRank node.rank (some node), nodesToDelete)) (fun _ => none, [])

def filterDuplicates (nodes : InactiveJobNodeList) : InactiveJobNodeList :=
  nodes.eraseAll (duplicates nodes.toList).2

def mergePreferringNewer (nodes other : InactiveJobNodeList) : InactiveJobNodeList :=
  filterDuplicates (nodes.insertAll other.toList)

def cleanUpStatuses (nodes : InactiveJobNodeList) : InactiveJobNodeList :=
  (setStatuses nodes fun n => if n.status = .lost then .lost else .available).eraseAll
    (nodes.toList.filter fun n => n.status = .lost)

/-- Down the tree until the index is not beyond the right bound, which grows
with every step. -/
def descend (leftOffset originalIndex : Nat) : Nat → Nat × Nat → Nat × Nat
  | 0, bounds => bounds
  | fuel + 1, (leftIndex, rightIndex) =>
    if originalIndex > rightIndex then
      descend leftOffset originalIndex fuel (2 * leftIndex + leftOffset, 2 * rightIndex + 2)
    else (leftIndex, rightIndex)

theorem le_descend (leftOffset originalIndex : Nat) {fuel : Nat} {bounds : Nat × Nat}
    (h : originalIndex ≤ bounds.2 + fuel) : originalIndex ≤ (descend leftOffset originalIndex fuel bounds).2 := by
  induction fuel generalizing bounds with
  | zero => exact h
  | succ fuel ih =>
      rw [descend]
      split
      · apply ih
        simp only
        omega
      · next hle => exact Nat.not_lt.mp hle

def nextLayer (originalIndex : Nat) (bounds : Nat × Nat) : Nat × Nat := descend 1 originalIndex originalIndex bounds

def extractSubtree (nodes : InactiveJobNodeList) (indexOfRoot : Nat) (excludeRoot : Bool) :
    InactiveJobNodeList × InactiveJobNodeList :=
  let bounds := if excludeRoot then (2 * indexOfRoot + 1, 2 * indexOfRoot + 2) else (indexOfRoot, indexOfRoot)
  let (_, result) := nodes.toList.foldl (fun (bounds, result) node =>
    let bounds := nextLayer node.originalIndex bounds
    if bounds.1 ≤ node.originalIndex ∧ node.originalIndex ≤ bounds.2 then (bounds, result ++ [node])
    else (bounds, result)) (bounds, [])
  (OrderedSet.empty.insertAll result, nodes.eraseAll result)

end InactiveJobNodeList

open InactiveJobNodeList

structure JobSchedulingUpdate where
  jobId : Int := -1
  destinationIndex : Int := -1
  epoch : Int := -1
  volume : Int := -1
  inactiveJobNodes : InactiveJobNodeList := OrderedSet.empty

namespace JobSchedulingUpdate

def rightmost (nodeIndex : Nat) (bounds : Nat × Nat) : Nat × Nat := descend 2 nodeIndex nodeIndex bounds

def splitNode (index : Nat) (sets : InactiveJobNodeList × InactiveJobNodeList) (node : InactiveJobNode) :
    InactiveJobNodeList × InactiveJobNodeList :=
  if node.originalIndex < 2 * index + 1 then
    -- just put into smaller of the two partitions
    if sets.1.toList.length < sets.2.toList.length then (sets.1.insert node, sets.2) else (sets.1, sets.2.insert node)
  else
    let (leftMax, _) := rightmost node.originalIndex (2 * index + 1, 2 * index + 2)
    if node.originalIndex > leftMax then (sets.1, sets.2.insert node) else (sets.1.insert node, sets.2)

def split (update : JobSchedulingUpdate) (index : Nat) : InactiveJobNodeList × InactiveJobNodeList :=
  update.inactiveJobNodes.toList.foldl (splitNode index) (OrderedSet.empty, OrderedSet.empty)

end JobSchedulingUpdate

end Mallob
