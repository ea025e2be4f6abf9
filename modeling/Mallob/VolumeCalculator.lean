import Mallob.EventMap
import Mallob.BalancingEntry

namespace Mallob

structure VolumeCalculator where
  entries : List BalancingEntry
  zeroEntries : List BalancingEntry
  sumOfPriorities : ℚ
  availableVolume : Int
  sumOfDemands : Int
  minMultiplier : ℚ
  maxMultiplier : ℚ
  centerOfMassOfMultiplier : ℚ
  prevLb : ℚ
  prevUb : ℚ
  numDismissedJobs : Nat
  baseUtilization : Int
  maxVolumeDiffBetweenBounds : Int
deriving DecidableEq, Repr

namespace VolumeCalculator

def admissible (ev : Event) : Bool := decide (0 ≤ ev.demand) && (ev.demand == 0 || decide (0 < ev.priority))

def getAvailableVolume (numWorkers : Nat) (loadFactor : ℚ) : Int := toInt (numWorkers * loadFactor)

def entryOf (ev : Event) : BalancingEntry := .new ev.jobId ev.demand ev.priority

/-- A failed assertion is none. -/
def new (events : EventMap) (numWorkers : Nat) (loadFactor : ℚ) : Option VolumeCalculator :=
  let evs := events.getEntries.map Prod.snd
  let entries := (evs.filter fun ev => ev.demand != 0).map entryOf
  if evs.all admissible then
    some {
      entries := entries
      zeroEntries := (evs.filter fun ev => ev.demand == 0).map entryOf
      sumOfPriorities := entries.foldl (fun sum e => sum + e.priority) 0
      availableVolume := getAvailableVolume numWorkers loadFactor
      sumOfDemands := 0
      minMultiplier := 0
      maxMultiplier := 0
      centerOfMassOfMultiplier := 0
      prevLb := 0
      prevUb := 0
      numDismissedJobs := 0
      baseUtilization := 0
      maxVolumeDiffBetweenBounds := 0 }
  else none

/-- robin_hood::hash_int where 128-bit products are available: the sum of the
two halves of a product. -/
def hashInt (obj : Int) : Nat :=
  let r := (obj % 2 ^ 64).toNat * 0xde5fb9d2630458e9
  (r / 2 ^ 64 + r % 2 ^ 64) % 2 ^ 64

/-- EntryComparatorByPriority. The hash of the job ids is a parameter: nothing
depends on which one breaks the ties. -/
def entryBefore (hash : Int → Nat) (first second : BalancingEntry) : Bool :=
  if first.priority ≠ second.priority then first.priority > second.priority
  else if first.originalDemand ≠ second.originalDemand then first.originalDemand > second.originalDemand
  else if hash first.jobId ≠ hash second.jobId then hash first.jobId < hash second.jobId
  else first.jobId < second.jobId

/-- std::sort: no entry is followed by one that the comparator puts before it. -/
def sortEntries (hash : Int → Nat) (es : List BalancingEntry) : List BalancingEntry :=
  es.insertionSort fun a b => !entryBefore hash b a

def sortRemainingEntries (hash : Int → Nat) (vc : VolumeCalculator) : VolumeCalculator :=
  { vc with entries := vc.entries.take vc.numDismissedJobs ++
      sortEntries hash (vc.entries.drop vc.numDismissedJobs) }

def epsilon : ℚ := 1 / 1000000

def int32Max : Int := 2147483647

def withFairShare (vc : VolumeCalculator) (job : BalancingEntry) : BalancingEntry :=
  { job with
    fairShare := job.priority / vc.sumOfPriorities * vc.availableVolume
    demand := min job.demand (vc.availableVolume - vc.entries.length + 1) }

def fairShareOk (job : BalancingEntry) : Bool :=
  decide (0 < job.demand) && job.getVolume (1 / job.fairShare) == 1 &&
    job.getVolume (job.demand / job.fairShare + epsilon) == job.demand

def computeFairShares (vc : VolumeCalculator) : Option VolumeCalculator :=
  let jobs := vc.entries.map (withFairShare vc)
  if jobs.all fairShareOk then
    some { vc with
      entries := jobs
      minMultiplier := jobs.foldl (fun a job => min a job.getFairShareMultiplierLowerBound) int32Max
      maxMultiplier := jobs.foldl (fun a job => max a job.getFairShareMultiplierUpperBound) 0 + epsilon
      centerOfMassOfMultiplier := jobs.foldl (fun a job => a +
        (job.getFairShareMultiplierLowerBound + job.getFairShareMultiplierUpperBound) / 2) 0 / jobs.length
      sumOfDemands := jobs.foldl (fun a job => a + job.demand) vc.sumOfDemands }
  else none

/-- Members and locals which the loop of calculateExcessVolumeOrNegative changes. -/
structure Scan where
  entries : List BalancingEntry
  numDismissedJobs : Nat
  baseUtilization : Int
  utilization : Int
  maxVolumeDiff : Int

def cacheVolume (leftHalf rightHalf : Bool) (job : BalancingEntry) : BalancingEntry :=
  let job := if leftHalf then { job with volumeUpper := job.volume } else job
  if rightHalf then { job with volumeLower := job.volume } else job

def dismiss (s : Scan) (i : Nat) (job : BalancingEntry) : Scan :=
  let job := { job with volume := job.volumeLower }
  let entries := s.entries.set i job
  let r := job.dismissAndSwapWith (entries.getD s.numDismissedJobs job)
  { s with
    entries := (entries.set i r.1).set s.numDismissedJobs r.2
    numDismissedJobs := s.numDismissedJobs + 1
    baseUtilization := s.baseUtilization + job.volumeLower
    utilization := s.utilization + job.volumeLower }

def evaluate (available : Int) (fairShareMultiplier : ℚ) (s : Scan) (i : Nat) (job : BalancingEntry) : Scan :=
  let job := { job with volume := job.getVolume fairShareMultiplier }
  { s with
    entries := s.entries.set i job
    utilization := if s.utilization ≤ available then s.utilization + job.volume else s.utilization
    maxVolumeDiff := max s.maxVolumeDiff (job.volumeUpper - job.volumeLower) }

def scanStep (available : Int) (fairShareMultiplier : ℚ) (leftHalf rightHalf : Bool) (s : Scan) (i : Nat) :
    Scan :=
  match s.entries[i]? with
  | none => s
  | some job =>
      let job := cacheVolume leftHalf rightHalf job
      if job.volumeLower = job.volumeUpper then dismiss s i job
      else evaluate available fairShareMultiplier s i job

def calculateExcessVolumeOrNegative (vc : VolumeCalculator) (fairShareMultiplier left right : ℚ) :
    VolumeCalculator × Int :=
  let entries :=
    if vc.prevLb = -1 then vc.entries.map fun job =>
      { job with volumeLower := job.getVolume left, volumeUpper := job.getVolume right }
    else vc.entries
  let s := (List.range' vc.numDismissedJobs (entries.length - vc.numDismissedJobs)).foldl
    (scanStep vc.availableVolume fairShareMultiplier (left = vc.prevLb) (right = vc.prevUb))
    ⟨entries, vc.numDismissedJobs, vc.baseUtilization, vc.baseUtilization, 0⟩
  ({ vc with
      entries := s.entries
      numDismissedJobs := s.numDismissedJobs
      baseUtilization := s.baseUtilization
      maxVolumeDiffBetweenBounds := s.maxVolumeDiff
      prevLb := left
      prevUb := right },
    vc.availableVolume - s.utilization)

def handOut : Int → List BalancingEntry → List BalancingEntry × Int
  | stillAvailable, [] => ([], stillAvailable)
  | stillAvailable, job :: jobs =>
      let job := { job with volume := job.volumeLower }
      if 0 < stillAvailable then
        let r := handOut (stillAvailable - 1) jobs
        ({ job with volume := job.volume + 1 } :: r.1, r.2)
      else
        let r := handOut stillAvailable jobs
        (job :: r.1, r.2)

def finalize (hash : Int → Nat) (vc : VolumeCalculator) (excess : Int) : Option VolumeCalculator :=
  if 0 < (vc.entries.length : Int) - vc.numDismissedJobs ∧ 0 < excess then
    let vc := sortRemainingEntries hash vc
    let r := handOut excess (vc.entries.drop vc.numDismissedJobs)
    if r.2 = 0 then some { vc with entries := vc.entries.take vc.numDismissedJobs ++ r.1 } else none
  else none

structure Search where
  vc : VolumeCalculator
  lower : ℚ
  upper : ℚ
  mid : ℚ
  bestExcess : Int
  excessAtLeft : Int

def nextMid (center mid lower upper : ℚ) (excess : Int) : ℚ :=
  if mid = 1 ∧ excess > 0 ∧ center > mid then center
  else if mid = 1 ∧ excess < 0 ∧ center < mid then center
  else (lower + upper) / 2

/-- The loop `while (true)`; none is a failed assertion or an exhausted fuel. -/
def search (hash : Int → Nat) : Nat → Search → Option VolumeCalculator
  | 0, _ => none
  | fuel + 1, s =>
      let r := calculateExcessVolumeOrNegative s.vc s.mid s.lower s.upper
      let excess := r.2
      let improved := s.bestExcess = -1 ∨ |excess| < |s.bestExcess|
      if improved ∧ excess = 0 then some r.1
      else if r.1.maxVolumeDiffBetweenBounds ≤ 1 then finalize hash r.1 s.excessAtLeft
      else
        let lower := if excess > 0 then s.mid else s.lower
        let upper := if excess < 0 then s.mid else s.upper
        search hash fuel {
          vc := r.1
          lower := lower
          upper := upper
          mid := nextMid r.1.centerOfMassOfMultiplier s.mid lower upper excess
          bestExcess := if improved then excess else s.bestExcess
          excessAtLeft := if excess > 0 then excess else s.excessAtLeft }

def calculateFunctionOptimizationAssignments (hash : Int → Nat) (fuel : Nat) (vc : VolumeCalculator) :
    Option VolumeCalculator :=
  search hash fuel {
    vc := { vc with
      prevLb := -1
      prevUb := -1
      numDismissedJobs := 0
      baseUtilization := 0
      maxVolumeDiffBetweenBounds := 0 }
    lower := vc.minMultiplier
    upper := vc.maxMultiplier
    mid := 1
    bestExcess := -1
    excessAtLeft := vc.availableVolume - vc.entries.length }

def calculateResult (hash : Int → Nat) (fuel : Nat) (vc : VolumeCalculator) : Option VolumeCalculator :=
  if vc.availableVolume ≤ vc.entries.length then some vc
  else do
    let vc ← computeFairShares (sortRemainingEntries hash vc)
    if vc.sumOfDemands ≤ vc.availableVolume then
      some { vc with entries := vc.entries.map fun job => { job with volume := job.demand } }
    else calculateFunctionOptimizationAssignments hash fuel vc

theorem sortEntries_perm (hash : Int → Nat) (es : List BalancingEntry) : (sortEntries hash es).Perm es :=
  List.perm_insertionSort _ es

@[simp] theorem length_sortEntries (hash : Int → Nat) (es : List BalancingEntry) :
    (sortEntries hash es).length = es.length := List.length_insertionSort _ es

@[simp] theorem mem_sortEntries {hash : Int → Nat} {es : List BalancingEntry} {e : BalancingEntry} :
    e ∈ sortEntries hash es ↔ e ∈ es := List.mem_insertionSort _

def sortKey (hash : Int → Nat) (e : BalancingEntry) : ℚ ×ₗ Int ×ₗ Nat ×ₗ Int :=
  toLex (-e.priority, toLex (-e.originalDemand, toLex (hash e.jobId, e.jobId)))

theorem entryBefore_iff (hash : Int → Nat) (a b : BalancingEntry) :
    entryBefore hash a b = true ↔ sortKey hash a < sortKey hash b := by
  simp only [entryBefore, sortKey, Prod.Lex.toLex_lt_toLex, neg_lt_neg_iff, neg_inj]
  by_cases hp : a.priority = b.priority
  · by_cases hd : a.originalDemand = b.originalDemand
    · by_cases hh : hash a.jobId = hash b.jobId
      · simp [hp, hd, hh]
      · simp [hp, hd, hh]
    · simp [hp, hd]
  · simp [hp]

theorem sortEntries_ordered (hash : Int → Nat) (es : List BalancingEntry) :
    (sortEntries hash es).Pairwise fun a b => sortKey hash a ≤ sortKey hash b := by
  have hkey : ∀ a b, (!entryBefore hash b a) = true ↔ sortKey hash a ≤ sortKey hash b := by
    intro a b
    rw [Bool.not_eq_true', ← not_lt, ← entryBefore_iff, Bool.not_eq_true]
  have : Std.Total fun a b : BalancingEntry => (!entryBefore hash b a) = true :=
    ⟨fun a b => by simp only [hkey]; exact le_total _ _⟩
  have : IsTrans BalancingEntry fun a b => (!entryBefore hash b a) = true :=
    ⟨fun a b c h1 h2 => by rw [hkey] at *; exact h1.trans h2⟩
  exact (List.pairwise_insertionSort (fun a b => (!entryBefore hash b a) = true) es).imp fun hab => (hkey _ _).mp hab

theorem sortEntries_pairwise (hash : Int → Nat) (es : List BalancingEntry) :
    (sortEntries hash es).Pairwise fun a b => b.priority ≤ a.priority := by
  refine (sortEntries_ordered hash es).imp ?_
  intro a b hab
  have := (Prod.Lex.toLex_le_toLex.mp hab).elim le_of_lt fun h => h.1.le
  simpa using this

end VolumeCalculator

end Mallob
