import Mallob.VolumeAssignment

namespace Mallob.VolumeIterations

open VolumeCalculator VolumeSweep VolumeSearch VolumeShares VolumeResult VolumeAssignment Bisection

/-- The loop goes on unless the excess is zero or the volumes at the bounds differ by at most one unit. -/
def iterate (s : Search) : Option Search :=
  let r := calculateExcessVolumeOrNegative s.vc s.mid s.lower s.upper
  if (s.bestExcess = -1 ∨ |r.2| < |s.bestExcess|) ∧ r.2 = 0 then none
  else if r.1.maxVolumeDiffBetweenBounds ≤ 1 then none
  else some (advance s)

def conclude (hash : Int → Nat) (s : Search) : Option VolumeCalculator :=
  let r := calculateExcessVolumeOrNegative s.vc s.mid s.lower s.upper
  if (s.bestExcess = -1 ∨ |r.2| < |s.bestExcess|) ∧ r.2 = 0 then some r.1 else finalize hash r.1 s.excessAtLeft

def iteration : Nat → Search → Option Search
  | 0, s => some s
  | n + 1, s => (iteration n s).bind iterate

def firstSearch (vc : VolumeCalculator) : Search where
  vc := { vc with
    prevLb := -1
    prevUb := -1
    numDismissedJobs := 0
    baseUtilization := 0
    maxVolumeDiffBetweenBounds := 0 }
  lower := vc.minMultiplier
  upper := vc.maxMultiplier
  mid := 1
  bestExcess := -1
  excessAtLeft := vc.availableVolume - vc.entries.length

theorem search_succ (hash : Int → Nat) (fuel : Nat) (s : Search) :
    search hash (fuel + 1) s = match iterate s with
      | some s' => search hash fuel s'
      | none => conclude hash s := by
  simp only [search, iterate, conclude]
  split
  · rfl
  · split <;> rfl

theorem iteration_succ (n : Nat) (s : Search) : iteration (n + 1) s = (iterate s).bind (iteration n) := by
  induction n with
  | zero =>
      rw [iteration]
      cases hs : iterate s with
      | none => exact hs
      | some s' => exact hs
  | succ n ih =>
      rw [iteration, ih]
      cases iterate s with
      | none => rfl
      | some s' => rfl

theorem iteration_eq_none {hash : Int → Nat} {fuel : Nat} {s : Search} {result : VolumeCalculator}
    (h : search hash fuel s = some result) : iteration fuel s = none := by
  induction fuel generalizing s with
  | zero => cases h
  | succ fuel ih =>
      rw [search_succ] at h
      rw [iteration_succ]
      cases hs : iterate s with
      | none => rfl
      | some s' =>
          rw [hs] at h
          exact ih h

def volumesAt (es : List BalancingEntry) (x : ℚ) : Int := (es.map (·.getVolume x)).sum

/-- The multiplier that is probed lies inside the range, the caches of all entries that are not dismissed are exact,
and so are the excess at the lower bound and the sign of the excess that is returned. -/
structure Exact (s : Search) : Prop where
  lower_lt : s.lower < s.mid
  lt_upper : s.mid < s.upper
  caches : ∀ e ∈ (calculateExcessVolumeOrNegative s.vc s.mid s.lower s.upper).1.entries.drop
      (calculateExcessVolumeOrNegative s.vc s.mid s.lower s.upper).1.numDismissedJobs,
    e.volumeLower = e.getVolume s.lower ∧ e.volumeUpper = e.getVolume s.upper ∧ e.volumeLower < e.volumeUpper
  excess_eq : s.excessAtLeft = s.vc.availableVolume - volumesAt s.vc.entries s.lower
  excess_pos : 0 < s.excessAtLeft
  sign_eq : (calculateExcessVolumeOrNegative s.vc s.mid s.lower s.upper).2.sign =
    (s.vc.availableVolume - volumesAt s.vc.entries s.mid).sign

section Simulated

variable {center : ℚ} {ss : List Share} {slots : List Int} {available : Int} {dismissed rest : List BalancingEntry}
variable {s : Search}

theorem volumesAt_eq_total {es : List BalancingEntry} {x : ℚ} (hx : 0 ≤ x) (hvalid : ∀ e ∈ es, e.share.Valid) :
    volumesAt es x = total (shares es) x := by
  rw [volumesAt, total, shares, List.map_map]
  exact congrArg List.sum (List.map_congr_left fun e he => e.getVolume_eq (hvalid e he) hx)

/-- Only the cached volumes are new in the entries that the scan finds. -/
theorem shares_prepared (vc : VolumeCalculator) (left right : ℚ) : shares (prepared vc left right) = shares vc.entries := by
  rw [prepared]
  split
  · rw [shares, List.map_map]
    rfl
  · rfl

theorem shares_perm_of_sim (h : Sim center ss slots available dismissed rest s) : (shares s.vc.entries).Perm ss := by
  rw [← shares_prepared s.vc s.lower s.upper, h.prepared.prepared_eq]
  exact h.perm

theorem volumesAt_of_sim (h : Sim center ss slots available dismissed rest s) {x : ℚ} (hx : 0 ≤ x) :
    volumesAt s.vc.entries x = total ss x := by
  have hvalid : ∀ e ∈ s.vc.entries, e.share.Valid := by
    intro e he
    have hmem : e.share ∈ shares (dismissed ++ rest) := by
      rw [← h.prepared.prepared_eq, shares_prepared]
      exact List.mem_map.mpr ⟨e, he, rfl⟩
    obtain ⟨e', he', hshare⟩ := List.mem_map.mp hmem
    rw [← hshare]
    exact h.prepared.valid e' he'
  rw [volumesAt_eq_total hx hvalid, total_perm (shares_perm_of_sim h)]

theorem exact_of_sim (h : Sim center ss slots available dismissed rest s) : Exact s := by
  obtain ⟨dismissed', kept, excess, hcall, hpass, -, -, -, -, hzero, hpos, hneg, -⟩ := sim_step h
  have hexcess : (calculateExcessVolumeOrNegative s.vc s.mid s.lower s.upper).2 = excess := by rw [hcall]
  have hmid : 0 ≤ s.mid := h.nonneg.trans h.lower_lt.le
  refine ⟨h.lower_lt, h.lt_upper, ?_, ?_, ?_, ?_⟩
  · intro e he
    rw [hpass.entries_eq, hpass.count_eq, List.drop_left] at he
    have hprobed := hpass.probed e he
    have hvalid := hpass.valid e (List.mem_append_right _ he)
    have hle := Share.volume_mono hvalid h.brackets.lt.le
    rw [e.getVolume_eq hvalid h.nonneg, e.getVolume_eq hvalid (hmid.trans h.lt_upper.le)]
    refine ⟨hprobed.lower_eq, hprobed.upper_eq, lt_of_le_of_ne ?_ hprobed.ne⟩
    rw [hprobed.lower_eq, hprobed.upper_eq]
    exact hle
  · rw [h.excess_eq, h.prepared.available_eq, volumesAt_of_sim h h.nonneg]
  · have hbelow := h.brackets.below
    rw [h.excess_eq]
    omega
  · rw [hexcess, h.prepared.available_eq, volumesAt_of_sim h hmid]
    rcases lt_trichotomy (total ss s.mid) available with hlt | heq | hgt
    · rw [Int.sign_eq_one_of_pos (hpos.mpr hlt), Int.sign_eq_one_of_pos (by omega)]
    · rw [hzero.mpr heq, heq, sub_self]
    · rw [Int.sign_eq_neg_one_of_neg (hneg.mpr hgt), Int.sign_eq_neg_one_of_neg (by omega)]

theorem sim_iterate (h : Sim center ss slots available dismissed rest s) {s' : Search} (hs : iterate s = some s') :
    ∃ dismissed' rest', Sim center ss slots available dismissed' rest' s' := by
  obtain ⟨dismissed', kept, excess, hcall, -, -, -, -, -, hzero, -, -, -⟩ := sim_step h
  simp only [iterate] at hs
  split at hs
  · cases hs
  · next hnot =>
      split at hs
      · cases hs
      · obtain rfl := Option.some.inj hs
        have hne : total ss s.mid ≠ available := by
          intro heq
          have hexcess := hzero.mpr heq
          rw [hcall, hexcess] at hnot
          exact hnot ⟨Or.inr (by simpa using h.best_ne), rfl⟩
        obtain ⟨dismissed₁, kept₁, hsim, -⟩ := h.advance hne
        exact ⟨dismissed₁, kept₁, hsim⟩

theorem sim_iteration (h : Sim center ss slots available dismissed rest s) {n : Nat} {s' : Search}
    (hs : iteration n s = some s') : ∃ dismissed' rest', Sim center ss slots available dismissed' rest' s' := by
  induction n generalizing s' with
  | zero =>
      obtain rfl := Option.some.inj hs
      exact ⟨dismissed, rest, h⟩
  | succ n ih =>
      obtain ⟨s₁, hs₁, hiterate⟩ := Option.bind_eq_some_iff.mp hs
      obtain ⟨dismissed₁, rest₁, hsim⟩ := ih hs₁
      exact sim_iterate hsim hiterate

end Simulated

/-- For jobs that ask for more than there is, the search over the multipliers ends, and every iteration is exact. -/
theorem bisection_exact {events : EventMap} {numWorkers : Nat} {loadFactor : ℚ}
    (h : Accepted events numWorkers loadFactor)
    (hmuch : getAvailableVolume numWorkers loadFactor < ((activeEvents events).map fun ev => min ev.demand
      (getAvailableVolume numWorkers loadFactor - (activeEvents events).length + 1)).sum) (hash : Int → Nat) :
    ∃ vc vc', new events numWorkers loadFactor = some vc ∧ computeFairShares (sortRemainingEntries hash vc) = some vc' ∧
      (∃ N, ∀ fuel, N ≤ fuel → iteration fuel (firstSearch vc') = none ∧
        ∃ result, calculateFunctionOptimizationAssignments hash fuel vc' = some result) ∧
      ∀ n s, iteration n (firstSearch vc') = some s → Exact s ∧ s.vc.availableVolume = vc'.availableVolume ∧
        (shares s.vc.entries).Perm (shares vc'.entries) := by
  obtain ⟨vc, hnew, hentries, hcount, havail, hprio, hdem⟩ := h.new_eq
  obtain ⟨vc', hfair, hshared⟩ := h.computeFairShares_eq hash hentries hcount havail hprio hdem
  have hdemands := sumOfDemands_jobShares hash events (getAvailableVolume numWorkers loadFactor)
  have hover := h.overloaded hash (by rw [hdemands]; exact hmuch)
  obtain ⟨rest, hrest, hsim⟩ := hshared.sim hover
  refine ⟨vc, vc', hnew, hfair, ?_, fun n s hs => ?_⟩
  · obtain ⟨N, hN⟩ := hover.bisect_ends
    refine ⟨N, fun fuel hfuel => ?_⟩
    obtain ⟨r, hr⟩ := hN fuel hfuel
    rw [← hshared.lowest_eq, ← hshared.highest_eq] at hr
    obtain ⟨result, hsearch, -⟩ := search_refines hash fuel hsim hr
    exact ⟨iteration_eq_none hsearch, result, hsearch⟩
  · obtain ⟨dismissed', rest', hsim'⟩ := sim_iteration hsim hs
    refine ⟨exact_of_sim hsim', hsim'.prepared.available_eq.trans hshared.available_eq.symm, ?_⟩
    rw [hshared.shares_eq]
    exact shares_perm_of_sim hsim'

theorem bisection_exact_three_jobs :
    Accepted (eventsOf [(1, 10, 1), (2, 9, 1), (3, 1, 1 / 2)]) 8 1 ∧
    ∃ vc vc', new (eventsOf [(1, 10, 1), (2, 9, 1), (3, 1, 1 / 2)]) 8 1 = some vc ∧
      computeFairShares (sortRemainingEntries hashInt vc) = some vc' ∧
      (∃ fuel result, calculateFunctionOptimizationAssignments hashInt fuel vc' = some result) ∧ Exact (firstSearch vc') := by
  have h : Accepted (eventsOf [(1, 10, 1), (2, 9, 1), (3, 1, 1 / 2)]) 8 1 :=
    accepted_of_entries (by decide +kernel) (by decide +kernel)
  obtain ⟨vc, vc', hnew, hfair, ⟨N, hN⟩, hexact⟩ := bisection_exact h (by decide +kernel) hashInt
  obtain ⟨-, result, hresult⟩ := hN N le_rfl
  exact ⟨h, vc, vc', hnew, hfair, ⟨N, result, hresult⟩, (hexact 0 _ rfl).1⟩

end Mallob.VolumeIterations
