import Mathlib

namespace Mallob

/-- A permutation of [0, n) with some values adjusted. The unadjusted one comes
out of a seeded Feistel network. -/
structure AdjustablePermutation (n : Nat) where
  unadjusted : Fin n → Fin n
  adjustedValues : Fin n → Option (Fin n)

namespace AdjustablePermutation

variable {n : Nat}

def create (unadjusted : Fin n → Fin n) : AdjustablePermutation n := ⟨unadjusted, fun _ => none⟩

def get (p : AdjustablePermutation n) (x : Fin n) : Fin n :=
  match p.adjustedValues x with
  | some y => y
  | none => p.unadjusted x

def adjust (p : AdjustablePermutation n) (x newX : Fin n) : AdjustablePermutation n :=
  if p.get x ≠ newX then { p with adjustedValues := Function.update p.adjustedValues x (some newX) } else p

@[simp] theorem get_create (unadjusted : Fin n → Fin n) : (create unadjusted).get = unadjusted := rfl

@[simp] theorem get_adjust (p : AdjustablePermutation n) (x newX : Fin n) :
    (p.adjust x newX).get = Function.update p.get x newX := by
  funext y
  rw [adjust]
  split
  · by_cases hy : y = x
    · subst hy
      simp [get]
    · simp [get, hy]
  · next hx =>
      rw [not_not] at hx
      rw [← hx, Function.update_eq_self]

def cyclicNext (pos : Fin n) : Fin n := ⟨(pos + 1) % n, Nat.mod_lt _ pos.pos⟩

def intrinsicPartners (pInit : AdjustablePermutation n) : Fin n → Fin n :=
  (List.finRange n).foldl (fun partners pos => Function.update partners (pInit.get pos) (pInit.get (cyclicNext pos)))
    fun val => ⟨0, val.pos⟩

def isValid (partners : Fin n → Fin n) (permutations : List (AdjustablePermutation n)) (pos val : Fin n) : Bool :=
  if pos = val then false
  else if partners pos = val then false
  else permutations.all fun perm => perm.get pos ≠ val

/-- A draw from [0, n - 1) is a position other than the current one. -/
def swapPosition (pos : Fin n) (draw : Fin (n - 1)) : Fin n :=
  ⟨if draw.val ≥ pos.val then draw + 1 else draw, by split <;> omega⟩

def canSwap (valid : Fin n → Fin n → Bool) (p : AdjustablePermutation n) (pos swapPos : Fin n) : Bool :=
  valid pos (p.get swapPos) && valid swapPos (p.get pos)

def swapValues (p : AdjustablePermutation n) (pos swapPos : Fin n) : AdjustablePermutation n :=
  (p.adjust pos (p.get swapPos)).adjust swapPos (p.get pos)

/-- The rejection loop over the random draws, which have not led to a swap yet
when they are used up. -/
def findSwap (valid : Fin n → Fin n → Bool) (p : AdjustablePermutation n) (pos : Fin n) :
    List (Fin (n - 1)) → Option (Fin n × List (Fin (n - 1)))
  | [] => none
  | draw :: draws =>
    if canSwap valid p pos (swapPosition pos draw) then some (swapPosition pos draw, draws)
    else findSwap valid p pos draws

def fixPosition (valid : Fin n → Fin n → Bool) (s : AdjustablePermutation n × List (Fin (n - 1))) (pos : Fin n) :
    Option (AdjustablePermutation n × List (Fin (n - 1))) :=
  if valid pos (s.1.get pos) then some s
  else (findSwap valid s.1 pos s.2).map fun (swapPos, draws) => (s.1.swapValues pos swapPos, draws)

def fixPositions (valid : Fin n → Fin n → Bool) (s : AdjustablePermutation n × List (Fin (n - 1)))
    (positions : List (Fin n)) : Option (AdjustablePermutation n × List (Fin (n - 1))) :=
  positions.foldlM (fixPosition valid) s

/-- The seed of the permutation that follows r finished ones, an int. -/
def seed (n r : Nat) : Int := (n * (r + 2) : Int).bmod (2 ^ 32)

def build (unadjusted : Int → Fin n → Fin n) (partners : Fin n → Fin n) (draws : List (Fin (n - 1))) :
    Nat → Option (List (AdjustablePermutation n) × List (Fin (n - 1)))
  | 0 => some ([], draws)
  | r + 1 => do
    let (permutations, draws) ← build unadjusted partners draws r
    let (p, draws) ← fixPositions (isValid partners permutations) (create (unadjusted (seed n r)), draws)
      (List.finRange n)
    return (permutations ++ [p], draws)

def firstEdges (unadjusted : Int → Fin n → Fin n) : Fin n → Fin n :=
  intrinsicPartners (create (unadjusted (n - 1)))

def getPermutations (unadjusted : Int → Fin n → Fin n) (degree : Nat) (draws : List (Fin (n - 1))) :
    Option (List (Fin n → Fin n)) :=
  (build unadjusted (firstEdges unadjusted) draws (degree - 1)).map fun (permutations, _) =>
    firstEdges unadjusted :: permutations.map get

end AdjustablePermutation

end Mallob
