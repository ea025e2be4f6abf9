import Mathlib

namespace Mallob

/-- The conversion of a floating-point value to int: the fraction is cut off
towards zero. Doubles are idealised as exact rationals. -/
def toInt (x : ℚ) : Int := x.num.tdiv x.den

theorem toInt_of_nonneg {x : ℚ} (h : 0 ≤ x) : toInt x = ⌊x⌋ := by
  rw [toInt, Int.tdiv_eq_ediv_of_nonneg (Rat.num_nonneg.mpr h), ← Rat.floor_def']

structure BalancingEntry where
  jobId : Int
  demand : Int
  originalDemand : Int
  priority : ℚ
  fairShare : ℚ
  volumeLower : Int
  volume : Int
  volumeUpper : Int
deriving DecidableEq, Repr

namespace BalancingEntry

/-- The source leaves fairShare uninitialised until computeFairShares. -/
def new (jobId demand : Int) (priority : ℚ) : BalancingEntry where
  jobId := jobId
  demand := demand
  originalDemand := demand
  priority := priority
  fairShare := 0
  volumeLower := 1
  volume := 1
  volumeUpper := 1

def getVolume (e : BalancingEntry) (fairShareMultiplier : ℚ) : Int :=
  let fairVolume :=
    if e.demand ≤ fairShareMultiplier ∧ 1 ≤ e.fairShare then e.demand
    else if 1 ≤ fairShareMultiplier ∧ e.demand ≤ e.fairShare then e.demand
    else toInt (fairShareMultiplier * e.fairShare)
  max 1 (min e.demand fairVolume)

def getFairShareMultiplierLowerBound (e : BalancingEntry) : ℚ := 1 / e.fairShare

def getFairShareMultiplierUpperBound (e : BalancingEntry) : ℚ := e.demand / e.fairShare

/-- The pair is the dismissed object and the other object after the swap. The
field originalDemand is copied in neither direction. -/
def dismissAndSwapWith (this other : BalancingEntry) : BalancingEntry × BalancingEntry :=
  ({ this with
      jobId := other.jobId
      demand := other.demand
      priority := other.priority
      fairShare := other.fairShare
      volume := other.volume
      volumeLower := other.volumeLower
      volumeUpper := other.volumeUpper },
   { other with
      jobId := this.jobId
      demand := this.demand
      priority := this.priority
      fairShare := this.fairShare
      volume := this.volume })

end BalancingEntry

structure Share where
  jobId : Int
  demand : Int
  priority : ℚ
  fairShare : ℚ
deriving DecidableEq, Repr

namespace Share

def volume (s : Share) (x : ℚ) : Int := max 1 (min s.demand ⌊x * s.fairShare⌋)

structure Valid (s : Share) : Prop where
  demand_pos : 1 ≤ s.demand
  fairShare_pos : 0 < s.fairShare

variable {s t : Share} {x y : ℚ}

theorem one_le_volume (s : Share) (x : ℚ) : 1 ≤ s.volume x := le_max_left _ _

theorem volume_le (hs : s.Valid) (x : ℚ) : s.volume x ≤ s.demand :=
  max_le hs.demand_pos (min_le_left _ _)

theorem volume_mono (hs : s.Valid) (h : x ≤ y) : s.volume x ≤ s.volume y := by
  have hxy : x * s.fairShare ≤ y * s.fairShare := by
    have := hs.fairShare_pos
    gcongr
  exact max_le_max_left 1 (min_le_min_left _ (Int.floor_le_floor hxy))

theorem volume_le_volume (hx : 0 ≤ x) (hd : s.demand ≤ t.demand) (hf : s.fairShare ≤ t.fairShare) :
    s.volume x ≤ t.volume x := by
  have hxy : x * s.fairShare ≤ x * t.fairShare := mul_le_mul_of_nonneg_left hf hx
  exact max_le_max_left 1 (min_le_min hd (Int.floor_le_floor hxy))

theorem volume_eq_one (hx : x * s.fairShare ≤ 1) : s.volume x = 1 := by
  have h : ⌊x * s.fairShare⌋ ≤ 1 := by
    have := Int.floor_le_floor hx
    simpa using this
  exact max_eq_left ((min_le_right _ _).trans h)

theorem volume_eq_demand (hs : s.Valid) (hx : s.demand ≤ x * s.fairShare) : s.volume x = s.demand := by
  rw [volume, min_eq_left (Int.le_floor.mpr hx), max_eq_right hs.demand_pos]

/-- Volumes within a range too narrow for two steps of one job differ by at most one. -/
theorem volume_le_succ (h : (y - x) * s.fairShare < 1) : s.volume y ≤ s.volume x + 1 := by
  have hf : ⌊y * s.fairShare⌋ ≤ ⌊x * s.fairShare⌋ + 1 := by
    rw [← Int.floor_add_one]
    apply Int.floor_le_floor
    linarith
  simp only [volume]
  omega

end Share

namespace BalancingEntry

def share (e : BalancingEntry) : Share := ⟨e.jobId, e.demand, e.priority, e.fairShare⟩

theorem getVolume_eq (e : BalancingEntry) (hs : e.share.Valid) {x : ℚ} (hx : 0 ≤ x) :
    e.getVolume x = e.share.volume x := by
  have hf : 0 < e.fairShare := hs.fairShare_pos
  have hd : (0 : ℚ) < e.demand := by exact_mod_cast hs.demand_pos
  have hcap (h : (e.demand : ℚ) ≤ x * e.fairShare) :
      max 1 (min e.demand e.demand) = e.share.volume x := by
    rw [Share.volume_eq_demand hs h, min_self]
    exact max_eq_right hs.demand_pos
  simp only [getVolume]
  split
  · next h => exact hcap (by nlinarith [h.1, h.2])
  · split
    · next h => exact hcap (by nlinarith [h.1, h.2])
    · rw [toInt_of_nonneg (mul_nonneg hx hf.le)]
      rfl

theorem dismissAndSwapWith_self (e : BalancingEntry) : e.dismissAndSwapWith e = (e, e) := rfl

end BalancingEntry

end Mallob
