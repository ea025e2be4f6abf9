import Mallob.OrderedSet
import Mallob.Walks

namespace Mallob.OutgoingEdges

variable {n : Nat}

def int32Max : Nat := 2 ^ 31 - 1

def addInt (x y : Int) : Int := (x + y).bmod (2 ^ 32)

/-- The comparator of the unvisited set. It reads the array of distances at the
time of the comparison. -/
def comp (hash : Int → Nat) (myRank : Fin n) (distance : Fin n → Nat) (x y : Fin n) : Bool :=
  if distance x ≠ distance y then distance x < distance y
  else hash (addInt x myRank) < hash (addInt y myRank)

def key (hash : Int → Nat) (myRank : Fin n) (distance : Fin n → Nat) (x : Fin n) : Nat ×ₗ Nat :=
  toLex (distance x, hash (addInt x myRank))

theorem comp_iff_key_lt (hash : Int → Nat) (myRank : Fin n) (distance : Fin n → Nat) (x y : Fin n) :
    comp hash myRank distance x y = true ↔ key hash myRank distance x < key hash myRank distance y := by
  rw [comp, key, key, Prod.Lex.toLex_lt_toLex]
  by_cases h : distance x = distance y <;> simp [h]

instance (hash : Int → Nat) (myRank : Fin n) (distance : Fin n → Nat) : Comparator (comp hash myRank distance) :=
  Comparator.of_key (key hash myRank distance) (comp_iff_key_lt hash myRank distance)

inductive Fault
  | noOutgoingEdge
  | overflow
  | unfinished
  deriving Repr, DecidableEq

/-- The search from one rank. No edge stands for the entry -1. -/
structure Search (hash : Int → Nat) (myRank : Fin n) where
  distance : Fin n → Nat
  unvisitedSet : OrderedSet (comp hash myRank distance)
  bestOutgoingEdge : Fin n → Option (Fin n)

namespace Search

variable {hash : Int → Nat} {myRank : Fin n}

def start (hash : Int → Nat) (myRank : Fin n) : Search hash myRank where
  distance := Function.update (fun _ => int32Max) myRank 0
  unvisitedSet := OrderedSet.empty.insertAll (List.finRange n)
  bestOutgoingEdge := fun _ => none

theorem comp_update {distance : Fin n → Nat} {x a b : Fin n} {d : Nat} (ha : a ≠ x) (hb : b ≠ x) :
    comp hash myRank (Function.update distance x d) a b = comp hash myRank distance a b := by
  simp [comp, Function.update_of_ne ha, Function.update_of_ne hb]

def setDistance (s : Search hash myRank) (x : Fin n) (d : Nat) : Search hash myRank where
  distance := Function.update s.distance x d
  unvisitedSet :=
    ((s.unvisitedSet.erase x).recompare (comp hash myRank (Function.update s.distance x d)) fun _ ha _ hb =>
      comp_update (fun h => s.unvisitedSet.not_mem_erase x (h ▸ ha))
        (fun h => s.unvisitedSet.not_mem_erase x (h ▸ hb))).insert x
  bestOutgoingEdge := s.bestOutgoingEdge

def setEdge (s : Search hash myRank) (x : Fin n) (edge : Option (Fin n)) : Search hash myRank :=
  { s with bestOutgoingEdge := Function.update s.bestOutgoingEdge x edge }

def eraseNode (s : Search hash myRank) (x : Fin n) : Search hash myRank :=
  { s with unvisitedSet := s.unvisitedSet.erase x }

def initEdge (s : Search hash myRank) (currentNode succNode : Fin n) : Search hash myRank where
  distance := s.distance
  unvisitedSet := s.unvisitedSet
  bestOutgoingEdge :=
    if currentNode = myRank then Function.update s.bestOutgoingEdge currentNode (some succNode)
    else s.bestOutgoingEdge

def update (s : Search hash myRank) (currentNode succNode : Fin n) : Except Fault (Search hash myRank) :=
  match s.bestOutgoingEdge currentNode with
  | none => .error .noOutgoingEdge
  | some edge =>
    if s.distance currentNode = int32Max then .error .overflow
    else if s.distance currentNode + 1 < s.distance succNode then
      .ok ((s.setDistance succNode (s.distance currentNode + 1)).setEdge succNode (some edge))
    else .ok s

def relax (s : Search hash myRank) (currentNode succNode : Fin n) : Except Fault (Search hash myRank) :=
  if s.unvisitedSet.contains succNode then (s.initEdge currentNode succNode).update currentNode succNode else .ok s

def relaxAll (s : Search hash myRank) (currentNode : Fin n) (succNodes : List (Fin n)) :
    Except Fault (Search hash myRank) := succNodes.foldlM (fun s succNode => s.relax currentNode succNode) s

def visit (permutations : List (Fin n → Fin n)) (s : Search hash myRank) (currentNode : Fin n) :
    Except Fault (Search hash myRank) := do
  let s ← s.relaxAll currentNode (permutations.map fun p => p currentNode)
  return s.eraseNode currentNode

/-- The while loop. Every pass erases a node, so as many passes as there are
nodes are enough. -/
def loop (permutations : List (Fin n → Fin n)) : Nat → Search hash myRank → Except Fault (Search hash myRank)
  | fuel, s =>
    match s.unvisitedSet.next none, fuel with
    | none, _ => .ok s
    | some _, 0 => .error .unfinished
    | some currentNode, fuel + 1 => do loop permutations fuel (← s.visit permutations currentNode)

end Search

def getBestOutgoingEdgeForEachNode (hash : Int → Nat) (permutations : List (Fin n → Fin n)) (myRank : Fin n) :
    Except Fault (Fin n → Option (Fin n)) := do
  let s ← (Search.start hash myRank).loop permutations n
  return Function.update s.bestOutgoingEdge myRank (some myRank)

end Mallob.OutgoingEdges
