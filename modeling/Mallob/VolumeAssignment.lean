import Mallob.VolumeResult

namespace Mallob.VolumeAssignment

open VolumeCalculator VolumeSweep VolumeSearch VolumeShares VolumeResult Bisection

section final

variable {hash : Int → Nat} {events : EventMap} {available : Int} {fuel : Nat} {vc : VolumeCalculator}

/-- Some multiplier below and some above bound the volume of every job, so a
job never gets less than one unit or more than its capped demand. -/
theorem NarrowResult.bounds {ss : List Share} {slots : List Int} {queue : List Share} {lower upper : ℚ}
    {dismissed kept : List BalancingEntry}
    (h : NarrowResult hash ss slots available queue lower upper dismissed kept vc) (e : BalancingEntry)
    (he : e ∈ vc.entries) : e.share ∈ ss ∧ e.share.volume lower ≤ e.volume ∧ e.volume ≤ e.share.volume upper := by
  have hmem : ∀ e₀ ∈ dismissed ++ kept, e₀.share ∈ ss := fun e₀ h₀ =>
    h.perm.mem_iff.mp (List.mem_map.mpr ⟨e₀, h₀, rfl⟩)
  rw [h.entries_eq] at he
  rcases List.mem_append.mp he with hd | hk
  · have hf := h.fixed e hd
    exact ⟨hmem e (by simp [hd]), hf.lower_eq.ge, hf.upper_eq.le⟩
  · obtain ⟨e₀, h₀, hs, hlow, hupp⟩ := mem_handOut hk
    rw [mem_sortEntries] at h₀
    rw [hs, h.upper_eq e₀ h₀, ← h.lower_eq e₀ h₀]
    exact ⟨hmem e₀ (by simp [h₀]), hlow, hupp⟩

theorem NarrowResult.volumes_eq {ss : List Share} {slots : List Int} {queue : List Share} {lower upper : ℚ}
    {dismissed kept : List BalancingEntry}
    (h : NarrowResult hash ss slots available queue lower upper dismissed kept vc) :
    volumes vc.entries = available := by
  have hsort := sortEntries_perm hash kept
  have hlow : (kept.map (·.volumeLower)).sum = total (shares kept) lower := by
    rw [total, shares, List.map_map]
    exact congrArg List.sum (List.map_congr_left fun e he => h.lower_eq e he)
  have htotal : total ss lower = volumes dismissed + (kept.map (·.volumeLower)).sum := by
    rw [← total_perm h.perm, shares_append, total_append, hlow,
      volumes_eq_total fun e he => (h.fixed e he).lower_eq]
  rw [h.entries_eq, volumes_append, volumes_handOut _ _ h.excess_pos.le
    (by rw [length_sortEntries]; exact h.excess_lt.le), (hsort.map _).sum_eq]
  omega

theorem NarrowResult.shares_perm {ss : List Share} {slots : List Int} {queue : List Share} {lower upper : ℚ}
    {dismissed kept : List BalancingEntry}
    (h : NarrowResult hash ss slots available queue lower upper dismissed kept vc) :
    (shares vc.entries).Perm ss := by
  rw [h.entries_eq, shares_append, shares_handOut]
  refine List.Perm.trans ?_ h.perm
  rw [shares_append]
  exact ((sortEntries_perm hash kept).map _).append_left _

theorem Final.shares_perm (h : Final hash events available fuel vc) :
    (shares vc.entries).Perm (jobShares hash events available) := by
  cases h with
  | fulfilled hperm _ _ => exact hperm
  | searched r _ _ hresult =>
      rcases r with ⟨trail, x | ⟨lower, upper⟩⟩
      · exact ExactResult.perm hresult
      · obtain ⟨dismissed, kept, hn⟩ := hresult
        exact NarrowResult.shares_perm hn

theorem Final.bounds (hvalid : ∀ s ∈ jobShares hash events available, s.Valid)
    (h : Final hash events available fuel vc) {e : BalancingEntry} (he : e ∈ vc.entries) :
    1 ≤ e.volume ∧ e.volume ≤ e.share.demand := by
  have hv : e.share.Valid := hvalid _ ((Final.shares_perm h).mem_iff.mp (List.mem_map.mpr ⟨e, he, rfl⟩))
  cases h with
  | fulfilled _ _ hvolume => rw [hvolume e he]; exact ⟨hv.demand_pos, le_rfl⟩
  | searched r _ _ hresult =>
      rcases r with ⟨trail, x | ⟨lower, upper⟩⟩
      · rw [ExactResult.volume_eq hresult e he]
        exact ⟨Share.one_le_volume _ _, Share.volume_le hv _⟩
      · obtain ⟨dismissed, kept, hn⟩ := hresult
        obtain ⟨_, hlow, hupp⟩ := NarrowResult.bounds hn e he
        exact ⟨(Share.one_le_volume _ _).trans hlow, hupp.trans (Share.volume_le hv _)⟩

theorem Final.volumes_eq (h : Final hash events available fuel vc) :
    volumes vc.entries = min available (VolumeShares.sumOfDemands (jobShares hash events available)) := by
  cases h with
  | fulfilled hperm hall hvolume =>
      rw [min_eq_right hall, VolumeShares.sumOfDemands, ← (hperm.map _).sum_eq, volumes, shares, List.map_map]
      exact congrArg List.sum (List.map_congr_left hvolume)
  | searched r hover _ hresult =>
      rw [min_eq_left hover.much.le]
      rcases r with ⟨trail, x | ⟨lower, upper⟩⟩
      · rw [volumes_eq_total (ExactResult.volume_eq hresult), total_perm (ExactResult.perm hresult)]
        exact ExactResult.total_eq hresult
      · obtain ⟨dismissed, kept, hn⟩ := hresult
        exact NarrowResult.volumes_eq hn

end final

theorem sumOfDemands_jobShares (hash : Int → Nat) (events : EventMap) (available : Int) :
    VolumeShares.sumOfDemands (jobShares hash events available) =
      ((activeEvents events).map fun ev => min ev.demand (maxReachable events available)).sum := by
  rw [VolumeShares.sumOfDemands, jobShares, List.map_map, ((sortedEntries_perm hash events).map _).sum_eq,
    List.map_map]
  rfl

theorem jobIds_jobShares (hash : Int → Nat) (events : EventMap) (available : Int) :
    ((jobShares hash events available).map (·.jobId)).Perm ((activeEvents events).map (·.jobId)) := by
  rw [jobShares, List.map_map]
  refine ((sortedEntries_perm hash events).map _).trans (List.Perm.of_eq ?_)
  rw [List.map_map]
  rfl

/-- Every unit is assigned as far as there is demand for it, and no job gets
less than one unit or more than it can use. -/
theorem calculateResult_assigns_all {events : EventMap} {numWorkers : Nat} {loadFactor : ℚ}
    (h : Accepted events numWorkers loadFactor) (hash : Int → Nat) :
    ∃ vc, new events numWorkers loadFactor = some vc ∧ ∃ N, ∀ fuel, N ≤ fuel → ∃ vc',
      calculateResult hash fuel vc = some vc' ∧
      (vc'.entries.map (·.jobId)).Perm ((activeEvents events).map (·.jobId)) ∧
      (∀ e ∈ vc'.entries, ∃ ev, events.map[e.jobId]? = some ev ∧ 1 ≤ e.volume ∧ e.volume ≤ min ev.demand
        (getAvailableVolume numWorkers loadFactor - (activeEvents events).length + 1)) ∧
      (vc'.entries.map (·.volume)).sum = min (getAvailableVolume numWorkers loadFactor)
        ((activeEvents events).map fun ev => min ev.demand
          (getAvailableVolume numWorkers loadFactor - (activeEvents events).length + 1)).sum := by
  obtain ⟨vc, hnew, N, hN⟩ := calculateResult_ends h hash
  refine ⟨vc, hnew, N, fun fuel hfuel => ?_⟩
  obtain ⟨vc', hcalc, hfinal⟩ := hN fuel hfuel
  have hperm := Final.shares_perm hfinal
  refine ⟨vc', hcalc, ?_, ?_, ?_⟩
  · have hids : vc'.entries.map (·.jobId) = (shares vc'.entries).map (·.jobId) := by
      rw [shares, List.map_map]; rfl
    rw [hids]
    exact (hperm.map _).trans (jobIds_jobShares hash events _)
  · intro e he
    obtain ⟨ev, hev, hs⟩ := mem_jobShares (hperm.mem_iff.mp (List.mem_map.mpr ⟨e, he, rfl⟩))
    have hid : e.jobId = ev.jobId := congrArg Share.jobId hs
    have hdem : e.share.demand = min ev.demand (maxReachable events (getAvailableVolume numWorkers loadFactor)) :=
      congrArg Share.demand hs
    obtain ⟨hone, hle⟩ := Final.bounds (fun s hs => h.valid hash hs) hfinal he
    refine ⟨ev, ?_, hone, hdem ▸ hle⟩
    rw [hid]
    exact ((mem_activeEvents events ev).mp hev).1
  · exact (Final.volumes_eq hfinal).trans (congrArg _ (sumOfDemands_jobShares hash events _))

def eventsOf (jobs : List (Int × Int × ℚ)) : EventMap :=
  jobs.foldl (fun m job => (m.insertIfNovel ⟨job.1, 1, job.2.1, job.2.2⟩).1) EventMap.empty

theorem calculateResult_assigns_all_four_jobs :
    Accepted (eventsOf [(1, 10, 1), (2, 9, 1), (3, 1, 1 / 2), (4, 0, 1)]) 8 1 ∧
    ∃ vc, new (eventsOf [(1, 10, 1), (2, 9, 1), (3, 1, 1 / 2), (4, 0, 1)]) 8 1 = some vc ∧
      ∃ fuel vc', calculateResult hashInt fuel vc = some vc' ∧ (vc'.entries.map (·.volume)).sum = 8 := by
  have h : Accepted (eventsOf [(1, 10, 1), (2, 9, 1), (3, 1, 1 / 2), (4, 0, 1)]) 8 1 :=
    accepted_of_entries (by decide +kernel) (by decide +kernel)
  obtain ⟨vc, hnew, N, hN⟩ := calculateResult_assigns_all h hashInt
  obtain ⟨vc', hcalc, _, _, hsum⟩ := hN N le_rfl
  refine ⟨h, vc, hnew, N, vc', hcalc, hsum.trans ?_⟩
  decide +kernel

end Mallob.VolumeAssignment
