import Mallob.VolumeAssignment

namespace Mallob.VolumeFairness

open VolumeCalculator VolumeSweep VolumeSearch VolumeShares VolumeResult VolumeAssignment Bisection

structure Between (a b : ℚ) (s : Share) (volume : Int) : Prop where
  lower : s.volume a ≤ volume
  upper : volume ≤ s.volume b
  narrow : s.volume b ≤ s.volume a + 1

theorem Between.of_eq {a : ℚ} {s : Share} {volume : Int} (h : volume = s.volume a) : Between a a s volume :=
  ⟨h.ge, h.le, by omega⟩

section final

variable {hash : Int → Nat} {events : EventMap} {available : Int} {fuel : Nat} {vc : VolumeCalculator}

/-- A job dismissed with an earlier range has kept the volume of the last one. -/
theorem NarrowResult.between {ss : List Share} {slots : List Int} {queue : List Share} {lower upper : ℚ}
    {dismissed kept : List BalancingEntry}
    (h : NarrowResult hash ss slots available queue lower upper dismissed kept vc) (e : BalancingEntry)
    (he : e ∈ vc.entries) : Between lower upper e.share e.volume := by
  obtain ⟨_, hlow, hupp⟩ := VolumeAssignment.NarrowResult.bounds h e he
  refine ⟨hlow, hupp, ?_⟩
  rw [h.entries_eq] at he
  rcases List.mem_append.mp he with hd | hk
  · have hf := h.fixed e hd
    rw [← hf.lower_eq, ← hf.upper_eq]
    omega
  · obtain ⟨e₀, h₀, hs, _, _⟩ := mem_handOut hk
    rw [mem_sortEntries] at h₀
    rw [hs, h.upper_eq e₀ h₀, ← h.lower_eq e₀ h₀]

theorem volume_highestMultiplier {ss : List Share} {s : Share} (hs : s ∈ ss) (hv : s.Valid) :
    s.volume (highestMultiplier ss) = s.demand := by
  apply Share.volume_eq_demand hv
  exact ((div_lt_iff₀ hv.fairShare_pos).mp (demand_lt_highest hs)).le

theorem highestMultiplier_pos (ss : List Share) : 0 < highestMultiplier ss := by
  have hle := (le_foldl_max (fun s : Share => (s.demand : ℚ) / s.fairShare) ss 0).1
  have heps : (0 : ℚ) < epsilon := by norm_num [epsilon]
  rw [highestMultiplier]
  linarith

/-- However the calculation ends, one pair of multipliers serves all jobs. -/
theorem Final.between (hvalid : ∀ s ∈ jobShares hash events available, s.Valid)
    (h : Final hash events available fuel vc) :
    ∃ a b, 0 ≤ a ∧ a ≤ b ∧ ∀ e ∈ vc.entries, Between a b e.share e.volume := by
  cases h with
  | fulfilled hperm _ hvolume =>
      refine ⟨_, _, (highestMultiplier_pos (jobShares hash events available)).le, le_rfl, fun e he => ?_⟩
      have hs := hperm.mem_iff.mp (List.mem_map.mpr ⟨e, he, rfl⟩)
      exact Between.of_eq ((hvolume e he).trans (volume_highestMultiplier hs (hvalid _ hs)).symm)
  | searched r _ _ hresult =>
      rcases r with ⟨trail, x | ⟨lower, upper⟩⟩
      · exact ⟨x, x, ExactResult.nonneg hresult, le_rfl, fun e he =>
          Between.of_eq (ExactResult.volume_eq hresult e he)⟩
      · obtain ⟨dismissed, kept, hn⟩ := hresult
        exact ⟨lower, upper, hn.nonneg, hn.le, NarrowResult.between hn⟩

end final

/-- All jobs are served by one common multiplier up to a unit each: two
multipliers enclose the volume of every job, by its fair share and its capped
demand. -/
theorem calculateResult_fair {events : EventMap} {numWorkers : Nat} {loadFactor : ℚ}
    (h : Accepted events numWorkers loadFactor) (hash : Int → Nat) :
    ∃ vc, new events numWorkers loadFactor = some vc ∧ ∃ N, ∀ fuel, N ≤ fuel → ∃ vc',
      calculateResult hash fuel vc = some vc' ∧
      (vc'.entries.map (·.jobId)).Perm ((activeEvents events).map (·.jobId)) ∧
      ∃ a b : ℚ, a ≤ b ∧ ∀ e ∈ vc'.entries, ∃ ev, events.map[e.jobId]? = some ev ∧
        e.fairShare = ev.priority / ((activeEvents events).map (·.priority)).sum *
          getAvailableVolume numWorkers loadFactor ∧
        e.demand = min ev.demand (getAvailableVolume numWorkers loadFactor - (activeEvents events).length + 1) ∧
        e.getVolume a ≤ e.volume ∧ e.volume ≤ e.getVolume b ∧ e.getVolume b ≤ e.getVolume a + 1 := by
  obtain ⟨vc, hnew, N, hN⟩ := calculateResult_ends h hash
  refine ⟨vc, hnew, N, fun fuel hfuel => ?_⟩
  obtain ⟨vc', hcalc, hfinal⟩ := hN fuel hfuel
  have hperm := VolumeAssignment.Final.shares_perm hfinal
  have hvalid := fun s hs => @Accepted.valid _ _ _ h hash s hs
  obtain ⟨a, b, ha, hab, hbetween⟩ := Final.between hvalid hfinal
  refine ⟨vc', hcalc, ?_, a, b, hab, ?_⟩
  · have hids : vc'.entries.map (·.jobId) = (shares vc'.entries).map (·.jobId) := by
      rw [shares, List.map_map]; rfl
    rw [hids]
    exact (hperm.map _).trans (jobIds_jobShares hash events _)
  · intro e he
    have hshare := hperm.mem_iff.mp (List.mem_map.mpr ⟨e, he, rfl⟩)
    obtain ⟨ev, hev, hs⟩ := mem_jobShares hshare
    have hid : e.jobId = ev.jobId := congrArg Share.jobId hs
    have hfair := congrArg Share.fairShare hs
    have hdemand := congrArg Share.demand hs
    have hbet := hbetween e he
    have hv := hvalid _ hshare
    refine ⟨ev, ?_, hfair, hdemand, ?_⟩
    · rw [hid]
      exact ((mem_activeEvents events ev).mp hev).1
    · rw [BalancingEntry.getVolume_eq e hv ha, BalancingEntry.getVolume_eq e hv (ha.trans hab)]
      exact ⟨hbet.lower, hbet.upper, hbet.narrow⟩

theorem calculateResult_fair_four_jobs :
    Accepted (eventsOf [(1, 10, 1), (2, 9, 1), (3, 1, 1 / 2), (4, 0, 1)]) 8 1 ∧
    ∃ vc, new (eventsOf [(1, 10, 1), (2, 9, 1), (3, 1, 1 / 2), (4, 0, 1)]) 8 1 = some vc ∧
      ∃ fuel vc', calculateResult hashInt fuel vc = some vc' ∧
        ∃ a b : ℚ, a ≤ b ∧ ∀ e ∈ vc'.entries, e.getVolume a ≤ e.volume ∧ e.volume ≤ e.getVolume b ∧
          e.getVolume b ≤ e.getVolume a + 1 := by
  have h : Accepted (eventsOf [(1, 10, 1), (2, 9, 1), (3, 1, 1 / 2), (4, 0, 1)]) 8 1 :=
    accepted_of_entries (by decide +kernel) (by decide +kernel)
  obtain ⟨vc, hnew, N, hN⟩ := calculateResult_fair h hashInt
  obtain ⟨vc', hcalc, _, a, b, hab, hfair⟩ := hN N le_rfl
  refine ⟨h, vc, hnew, N, vc', hcalc, a, b, hab, fun e he => ?_⟩
  obtain ⟨_, _, _, _, hbetween⟩ := hfair e he
  exact hbetween

end Mallob.VolumeFairness
