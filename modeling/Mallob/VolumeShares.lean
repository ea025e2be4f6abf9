import Mallob.VolumeSearch

namespace Mallob.VolumeShares

open VolumeCalculator VolumeSweep VolumeSearch Bisection

def lowestMultiplier (ss : List Share) : ℚ := ss.foldl (fun a s => min a (1 / s.fairShare)) int32Max

def highestMultiplier (ss : List Share) : ℚ := ss.foldl (fun a s => max a ((s.demand : ℚ) / s.fairShare)) 0 + epsilon

def centerOfMass (ss : List Share) : ℚ :=
  ss.foldl (fun a s => a + (1 / s.fairShare + (s.demand : ℚ) / s.fairShare) / 2) 0 / ss.length

def sumOfDemands (ss : List Share) : Int := (ss.map (·.demand)).sum

structure Overloaded (ss : List Share) (available : Int) : Prop where
  valid : ∀ s ∈ ss, s.Valid
  fair : (ss.map (·.fairShare)).sum = available
  few : (ss.length : Int) < available
  much : available < sumOfDemands ss

section folds

variable {α : Type} (g : α → ℚ)

theorem foldl_min_le (xs : List α) (a : ℚ) :
    xs.foldl (fun a x => min a (g x)) a ≤ a ∧ ∀ x ∈ xs, xs.foldl (fun a x => min a (g x)) a ≤ g x := by
  induction xs generalizing a with
  | nil => simp
  | cons y xs ih =>
      obtain ⟨h1, h2⟩ := ih (min a (g y))
      rw [List.foldl_cons]
      refine ⟨h1.trans (min_le_left _ _), ?_⟩
      intro x hx
      rcases List.mem_cons.mp hx with rfl | hx
      · exact h1.trans (min_le_right _ _)
      · exact h2 x hx

theorem lt_foldl_min {b : ℚ} (xs : List α) (a : ℚ) (ha : b < a) (hx : ∀ x ∈ xs, b < g x) :
    b < xs.foldl (fun a x => min a (g x)) a := by
  induction xs generalizing a with
  | nil => exact ha
  | cons y xs ih =>
      rw [List.foldl_cons]
      exact ih _ (lt_min ha (hx y (by simp))) fun x h => hx x (by simp [h])

theorem le_foldl_max (xs : List α) (a : ℚ) :
    a ≤ xs.foldl (fun a x => max a (g x)) a ∧ ∀ x ∈ xs, g x ≤ xs.foldl (fun a x => max a (g x)) a := by
  induction xs generalizing a with
  | nil => simp
  | cons y xs ih =>
      obtain ⟨h1, h2⟩ := ih (max a (g y))
      rw [List.foldl_cons]
      refine ⟨(le_max_left _ _).trans h1, ?_⟩
      intro x hx
      rcases List.mem_cons.mp hx with rfl | hx
      · exact (le_max_right _ _).trans h1
      · exact h2 x hx

theorem foldl_add (xs : List α) (a : ℚ) : xs.foldl (fun a x => a + g x) a = a + (xs.map g).sum := by
  induction xs generalizing a with
  | nil => simp
  | cons y xs ih => rw [List.foldl_cons, ih, List.map_cons, List.sum_cons, add_assoc]

end folds

theorem cast_sumOfDemands (ss : List Share) : (sumOfDemands ss : ℚ) = (ss.map fun s => (s.demand : ℚ)).sum := by
  rw [sumOfDemands, Int.cast_list_sum, List.map_map]
  rfl

theorem total_eq_length {ss : List Share} {x : ℚ} (h : ∀ s ∈ ss, s.volume x = 1) : total ss x = ss.length := by
  rw [total, List.map_congr_left h]
  simp

theorem total_eq_demands {ss : List Share} {x : ℚ} (h : ∀ s ∈ ss, s.volume x = s.demand) :
    total ss x = sumOfDemands ss := by
  rw [total, List.map_congr_left h, sumOfDemands]

theorem demand_lt_highest {ss : List Share} {s : Share} (hs : s ∈ ss) :
    (s.demand : ℚ) / s.fairShare < highestMultiplier ss := by
  have hle := (le_foldl_max (fun s : Share => (s.demand : ℚ) / s.fairShare) ss 0).2 s hs
  have heps : (0 : ℚ) < epsilon := by norm_num [epsilon]
  rw [highestMultiplier]
  linarith

section overloaded

variable {ss : List Share} {available : Int} (h : Overloaded ss available)

include h

theorem Overloaded.available_pos : (0 : ℚ) < available := by
  have := h.few
  have h0 : (0 : Int) < available := by omega
  exact_mod_cast h0

theorem Overloaded.lowest_mul_le {s : Share} (hs : s ∈ ss) : lowestMultiplier ss * s.fairShare ≤ 1 := by
  have hle : lowestMultiplier ss ≤ 1 / s.fairShare := (foldl_min_le (fun s : Share => 1 / s.fairShare) ss _).2 s hs
  exact (le_div_iff₀ (h.valid s hs).fairShare_pos).mp hle

theorem Overloaded.lowest_pos : 0 < lowestMultiplier ss := by
  apply lt_foldl_min
  · norm_num [int32Max]
  · intro s hs
    exact one_div_pos.mpr (h.valid s hs).fairShare_pos

theorem Overloaded.brackets : Brackets (total ss) available (lowestMultiplier ss) (highestMultiplier ss) := by
  have hlow : total ss (lowestMultiplier ss) = ss.length :=
    total_eq_length fun s hs => Share.volume_eq_one (h.lowest_mul_le hs)
  have hhigh : total ss (highestMultiplier ss) = sumOfDemands ss := by
    apply total_eq_demands
    intro s hs
    apply Share.volume_eq_demand (h.valid s hs)
    exact ((div_lt_iff₀ (h.valid s hs).fairShare_pos).mp (demand_lt_highest hs)).le
  refine ⟨?_, by rw [hlow]; exact h.few, by rw [hhigh]; exact h.much⟩
  by_contra hle
  have hmono : total ss (highestMultiplier ss) ≤ total ss (lowestMultiplier ss) := by
    apply List.sum_le_sum
    intro s hs
    exact Share.volume_mono (h.valid s hs) (not_lt.mp hle)
  have := h.few
  have := h.much
  omega

/-- Some fair share exceeds one, and some demand exceeds its fair share. -/
theorem Overloaded.one_inside : lowestMultiplier ss < 1 ∧ 1 < highestMultiplier ss := by
  constructor
  · by_contra hge
    have hfs : ∀ s ∈ ss, s.fairShare ≤ 1 := by
      intro s hs
      have h1 := h.lowest_mul_le hs
      have h2 := (h.valid s hs).fairShare_pos
      nlinarith [not_lt.mp hge]
    have hsum := List.sum_le_card_nsmul (ss.map (·.fairShare)) 1 (by simpa using hfs)
    rw [h.fair, List.length_map, nsmul_one] at hsum
    have hle : available ≤ (ss.length : Int) := by exact_mod_cast hsum
    have := h.few
    omega
  · by_contra hge
    have hd : ∀ s ∈ ss, (s.demand : ℚ) ≤ s.fairShare := by
      intro s hs
      have h1 := (div_lt_iff₀ (h.valid s hs).fairShare_pos).mp (demand_lt_highest hs)
      have h2 := (h.valid s hs).fairShare_pos
      nlinarith [not_lt.mp hge]
    have hsum : (ss.map fun s => (s.demand : ℚ)).sum ≤ (ss.map (·.fairShare)).sum := List.sum_le_sum hd
    rw [← cast_sumOfDemands, h.fair] at hsum
    have : sumOfDemands ss ≤ available := by exact_mod_cast hsum
    have := h.much
    omega

theorem Overloaded.length_pos : (0 : ℚ) < ss.length := by
  cases ss with
  | nil =>
      have h1 := h.few
      have h2 := h.much
      simp only [sumOfDemands, List.length_nil, List.map_nil, List.sum_nil] at h1 h2
      push_cast at h1
      omega
  | cons s ss => simp only [List.length_cons]; positivity

theorem Overloaded.center_inside :
    lowestMultiplier ss < centerOfMass ss ∧ centerOfMass ss < highestMultiplier ss := by
  obtain ⟨g, hg⟩ : ∃ g : Share → ℚ, g = fun s => (1 / s.fairShare + (s.demand : ℚ) / s.fairShare) / 2 := ⟨_, rfl⟩
  have hc : centerOfMass ss = (ss.map g).sum / ss.length := by
    rw [centerOfMass, hg, foldl_add, zero_add]
  have hlen := h.length_pos
  have hlow : ∀ s ∈ ss, lowestMultiplier ss ≤ 1 / s.fairShare := fun s hs =>
    (le_div_iff₀ (h.valid s hs).fairShare_pos).mpr (h.lowest_mul_le hs)
  have hone : ∀ s ∈ ss, 1 / s.fairShare ≤ s.demand / s.fairShare := by
    intro s hs
    have hd : (1 : ℚ) ≤ s.demand := by exact_mod_cast (h.valid s hs).demand_pos
    have := (h.valid s hs).fairShare_pos
    gcongr
  constructor
  · rw [hc, lt_div_iff₀ hlen]
    obtain ⟨s, hs, hgt⟩ : ∃ s ∈ ss, 1 < s.demand := by
      by_contra hno
      have hle : ∀ d ∈ ss.map (·.demand), d ≤ 1 := by
        intro d hd
        obtain ⟨s, hs, rfl⟩ := List.mem_map.mp hd
        exact not_lt.mp fun hlt => hno ⟨s, hs, hlt⟩
      have hsum := List.sum_le_card_nsmul _ 1 hle
      rw [List.length_map, nsmul_one] at hsum
      have h1 := h.few
      have h2 := h.much
      simp only [sumOfDemands] at h2
      have : (((ss.length : Nat) : Int)) = ss.length := rfl
      omega
    have hsum : (ss.map fun _ => lowestMultiplier ss).sum < (ss.map g).sum := by
      apply List.sum_lt_sum
      · intro t ht
        have h1 := hlow t ht
        have h2 := hone t ht
        simp only [hg]
        linarith
      · refine ⟨s, hs, ?_⟩
        have hd : (1 : ℚ) < s.demand := by exact_mod_cast hgt
        have hlt : 1 / s.fairShare < s.demand / s.fairShare := by
          have := (h.valid s hs).fairShare_pos
          gcongr
        have h1 := hlow s hs
        simp only [hg]
        linarith
    simp only [List.map_const', List.sum_replicate, nsmul_eq_mul] at hsum
    linarith
  · rw [hc, div_lt_iff₀ hlen]
    have hne : ss ≠ [] := by rintro rfl; simp at hlen
    have hsum : (ss.map g).sum < (ss.map fun _ => highestMultiplier ss).sum := by
      apply List.sum_lt_sum_of_ne_nil hne
      intro t ht
      have h1 := hone t ht
      have h2 := demand_lt_highest ht
      simp only [hg]
      linarith
    simp only [List.map_const', List.sum_replicate, nsmul_eq_mul] at hsum
    linarith

theorem Overloaded.flat_of_narrow {lower upper : ℚ} (hw : upper - lower < 1 / available) :
    flat ss lower upper = true := by
  rw [flat, List.all_eq_true]
  intro s hs
  have hA := h.available_pos
  have hf := (h.valid s hs).fairShare_pos
  have hle : s.fairShare ≤ available := by
    rw [← h.fair]
    apply List.single_le_sum
    · intro f hf
      obtain ⟨t, ht, rfl⟩ := List.mem_map.mp hf
      exact (h.valid t ht).fairShare_pos.le
    · exact List.mem_map.mpr ⟨s, hs, rfl⟩
  have hlt : (upper - lower) * s.fairShare < 1 := by
    rcases le_or_gt (upper - lower) 0 with hneg | hpos
    · nlinarith
    · calc (upper - lower) * s.fairShare ≤ (upper - lower) * available := by gcongr
        _ < 1 / available * available := by gcongr
        _ = 1 := by field_simp
  have := Share.volume_le_succ hlt
  simp only [decide_eq_true_eq]
  omega

theorem Overloaded.guided : Guided (centerOfMass ss) (lowestMultiplier ss) 1 (highestMultiplier ss) :=
  Or.inl ⟨rfl, h.center_inside⟩

/-- The bisection over the multipliers ends for every overloaded system. -/
theorem Overloaded.bisect_ends : ∃ N, ∀ fuel, N ≤ fuel → ∃ r,
    bisect (total ss) available (flat ss) (probe (centerOfMass ss)) fuel (lowestMultiplier ss)
      (highestMultiplier ss) 1 = some r := by
  apply bisect_terminates 1 (1 / (available : ℚ)) (one_div_pos.mpr h.available_pos)
  · intro lower upper hw; exact h.flat_of_narrow hw
  · intro lower upper mid up hm; exact probe_of_ne hm
  · exact h.one_inside.1
  · exact h.one_inside.2
  · intro hne
    rcases lt_or_gt_of_ne hne with hlt | hgt
    · rw [raised, lowered, if_pos hlt, if_neg hlt.not_gt, decide_eq_true hlt]
      exact probe_up_inside h.guided h.one_inside.1 h.one_inside.2
    · rw [raised, lowered, if_neg hgt.not_gt, if_pos hgt, decide_eq_false hgt.not_gt]
      exact probe_down_inside h.guided h.one_inside.1 h.one_inside.2

end overloaded

end Mallob.VolumeShares
