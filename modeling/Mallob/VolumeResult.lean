import Mallob.VolumeShares

namespace Mallob.VolumeResult

open VolumeCalculator VolumeSweep VolumeSearch VolumeShares Bisection

def activeEvents (events : EventMap) : List Event :=
  (events.getEntries.map Prod.snd).filter fun ev => ev.demand != 0

/-- What calculateResult expects: no negative demand, a priority for every
demand, and more available volume than jobs. -/
structure Accepted (events : EventMap) (numWorkers : Nat) (loadFactor : ℚ) : Prop where
  demand_nonneg : ∀ (k : Int) (ev : Event), events.map[k]? = some ev → 0 ≤ ev.demand
  priority_pos : ∀ (k : Int) (ev : Event), events.map[k]? = some ev → 0 < ev.demand → 0 < ev.priority
  enough : ((activeEvents events).length : Int) < getAvailableVolume numWorkers loadFactor

theorem accepted_of_entries {events : EventMap} {numWorkers : Nat} {loadFactor : ℚ}
    (hall : events.getEntries.all (fun e => admissible e.2) = true)
    (henough : ((activeEvents events).length : Int) < getAvailableVolume numWorkers loadFactor) :
    Accepted events numWorkers loadFactor := by
  have hev : ∀ (k : Int) (ev : Event), events.map[k]? = some ev → admissible ev = true := fun k ev h =>
    List.all_eq_true.mp hall (k, ev) ((EventMap.mem_getEntries events k ev).mpr h)
  simp only [admissible, Bool.and_eq_true, decide_eq_true_eq, Bool.or_eq_true, beq_iff_eq] at hev
  refine ⟨fun k ev h => (hev k ev h).1, fun k ev h hpos => ?_, henough⟩
  rcases (hev k ev h).2 with h0 | hp
  · omega
  · exact hp

def maxReachable (events : EventMap) (available : Int) : Int := available - (activeEvents events).length + 1

def sortedEntries (hash : Int → Nat) (events : EventMap) : List BalancingEntry :=
  sortEntries hash ((activeEvents events).map entryOf)

def sumOfPriorities (events : EventMap) : ℚ := ((activeEvents events).map (·.priority)).sum

def shareFor (events : EventMap) (available : Int) (e : BalancingEntry) : Share where
  jobId := e.jobId
  demand := min e.demand (maxReachable events available)
  priority := e.priority
  fairShare := e.priority / sumOfPriorities events * available

def jobShares (hash : Int → Nat) (events : EventMap) (available : Int) : List Share :=
  (sortedEntries hash events).map (shareFor events available)

theorem mem_activeEvents (events : EventMap) (ev : Event) :
    ev ∈ activeEvents events ↔ events.map[ev.jobId]? = some ev ∧ ev.demand ≠ 0 := by
  simp only [activeEvents, List.mem_filter, List.mem_map, Prod.exists, exists_eq_right, bne_iff_ne, ne_eq,
    and_congr_left_iff, EventMap.mem_getEntries]
  intro _
  constructor
  · rintro ⟨k, hk⟩; rw [events.keyed k ev hk]; exact hk
  · intro hk; exact ⟨_, hk⟩

theorem mem_sortedEntries (hash : Int → Nat) (events : EventMap) (e : BalancingEntry) :
    e ∈ sortedEntries hash events ↔ ∃ ev ∈ activeEvents events, entryOf ev = e := by
  simp [sortedEntries, mem_sortEntries]

theorem sortedEntries_perm (hash : Int → Nat) (events : EventMap) :
    (sortedEntries hash events).Perm ((activeEvents events).map entryOf) :=
  sortEntries_perm hash _

theorem mem_jobShares {hash : Int → Nat} {events : EventMap} {available : Int} {s : Share}
    (h : s ∈ jobShares hash events available) :
    ∃ ev ∈ activeEvents events, s = shareFor events available (entryOf ev) := by
  obtain ⟨e, he, rfl⟩ := List.mem_map.mp h
  obtain ⟨ev, hev, rfl⟩ := (mem_sortedEntries hash events e).mp he
  exact ⟨ev, hev, rfl⟩

theorem length_sortedEntries (hash : Int → Nat) (events : EventMap) :
    (sortedEntries hash events).length = (activeEvents events).length := by
  simpa using (sortedEntries_perm hash events).length_eq

section accepted

variable {events : EventMap} {numWorkers : Nat} {loadFactor : ℚ} (h : Accepted events numWorkers loadFactor)

include h

theorem Accepted.active {ev : Event} (hev : ev ∈ activeEvents events) : 0 < ev.demand ∧ 0 < ev.priority := by
  obtain ⟨hk, hne⟩ := (mem_activeEvents events ev).mp hev
  have h0 := h.demand_nonneg _ ev hk
  have hpos : 0 < ev.demand := by omega
  exact ⟨hpos, h.priority_pos _ ev hk hpos⟩

theorem Accepted.sumOfPriorities_pos {ev : Event} (hev : ev ∈ activeEvents events) : 0 < sumOfPriorities events := by
  apply List.sum_pos
  · intro p hp
    obtain ⟨ev', hev', rfl⟩ := List.mem_map.mp hp
    exact (h.active hev').2
  · intro hnil
    rw [List.map_eq_nil_iff.mp hnil] at hev
    simp at hev

theorem Accepted.available_pos : (0 : ℚ) < getAvailableVolume numWorkers loadFactor := by
  have := h.enough
  have h0 : 0 < getAvailableVolume numWorkers loadFactor := by omega
  exact_mod_cast h0

theorem Accepted.valid (hash : Int → Nat) {s : Share}
    (hs : s ∈ jobShares hash events (getAvailableVolume numWorkers loadFactor)) : s.Valid := by
  obtain ⟨ev, hev, rfl⟩ := mem_jobShares hs
  obtain ⟨hd, hp⟩ := h.active hev
  have hA := h.available_pos
  have hP := h.sumOfPriorities_pos hev
  constructor
  · have := h.enough
    simp only [shareFor, maxReachable, entryOf, BalancingEntry.new]
    omega
  · simp only [shareFor, entryOf, BalancingEntry.new]
    positivity

theorem Accepted.fair (hash : Int → Nat) (hne : activeEvents events ≠ []) :
    ((jobShares hash events (getAvailableVolume numWorkers loadFactor)).map (·.fairShare)).sum =
      getAvailableVolume numWorkers loadFactor := by
  obtain ⟨ev, hev⟩ := List.exists_mem_of_ne_nil _ hne
  have hP := h.sumOfPriorities_pos hev
  have hperm : ((jobShares hash events (getAvailableVolume numWorkers loadFactor)).map (·.fairShare)).Perm
      ((activeEvents events).map fun ev => ev.priority *
        (getAvailableVolume numWorkers loadFactor / sumOfPriorities events)) := by
    rw [jobShares, List.map_map]
    refine ((sortedEntries_perm hash events).map _).trans (List.Perm.of_eq ?_)
    rw [List.map_map]
    apply List.map_congr_left
    intro ev _
    simp only [Function.comp_apply, shareFor, entryOf, BalancingEntry.new]
    ring
  rw [hperm.sum_eq, List.sum_map_mul_right]
  rw [← sumOfPriorities]
  field_simp

theorem Accepted.overloaded (hash : Int → Nat)
    (hmuch : getAvailableVolume numWorkers loadFactor <
      VolumeShares.sumOfDemands (jobShares hash events (getAvailableVolume numWorkers loadFactor))) :
    Overloaded (jobShares hash events (getAvailableVolume numWorkers loadFactor))
      (getAvailableVolume numWorkers loadFactor) := by
  have hne : activeEvents events ≠ [] := by
    intro hnil
    have h0 := h.available_pos
    have h1 : 0 < getAvailableVolume numWorkers loadFactor := by exact_mod_cast h0
    simp only [jobShares, sortedEntries, hnil, VolumeShares.sumOfDemands] at hmuch
    exact absurd hmuch h1.not_gt
  refine ⟨fun s hs => h.valid hash hs, h.fair hash hne, ?_, hmuch⟩
  rw [jobShares, List.length_map, length_sortedEntries]
  exact h.enough

theorem Accepted.new_eq : ∃ vc, new events numWorkers loadFactor = some vc ∧
    vc.entries = (activeEvents events).map entryOf ∧ vc.numDismissedJobs = 0 ∧
    vc.availableVolume = getAvailableVolume numWorkers loadFactor ∧
    vc.sumOfPriorities = sumOfPriorities events ∧ vc.sumOfDemands = 0 := by
  have hall : (events.getEntries.map Prod.snd).all admissible = true := by
    rw [List.all_eq_true]
    intro ev hev
    obtain ⟨⟨k, _⟩, hk, rfl⟩ := List.mem_map.mp hev
    have hk := (EventMap.mem_getEntries events k _).mp hk
    have h0 := h.demand_nonneg k _ hk
    have hp := h.priority_pos k _ hk
    simp only [admissible, Bool.and_eq_true, decide_eq_true_eq, Bool.or_eq_true, beq_iff_eq]
    refine ⟨h0, ?_⟩
    rcases h0.eq_or_lt with he | hlt
    · left; exact he.symm
    · right; exact hp hlt
  refine ⟨_, by rw [new]; exact if_pos hall, rfl, rfl, rfl, ?_, rfl⟩
  rw [foldl_add, zero_add, List.map_map]
  rfl

end accepted

structure Shared (hash : Int → Nat) (events : EventMap) (available : Int) (vc : VolumeCalculator) : Prop where
  shares_eq : shares vc.entries = jobShares hash events available
  slots_eq : slotDemands vc.entries = (sortedEntries hash events).map (·.demand)
  available_eq : vc.availableVolume = available
  lowest_eq : vc.minMultiplier = lowestMultiplier (jobShares hash events available)
  highest_eq : vc.maxMultiplier = highestMultiplier (jobShares hash events available)
  center_eq : vc.centerOfMassOfMultiplier = centerOfMass (jobShares hash events available)
  demands_eq : vc.sumOfDemands = VolumeShares.sumOfDemands (jobShares hash events available)

theorem fairShareOk_of_valid {job : BalancingEntry} (h : job.share.Valid) : fairShareOk job = true := by
  have hf : 0 < job.fairShare := h.fairShare_pos
  have hd : (0 : ℚ) < job.demand := by exact_mod_cast h.demand_pos
  have heps : (0 : ℚ) < epsilon := by norm_num [epsilon]
  have h1 : job.getVolume (1 / job.fairShare) = 1 := by
    rw [BalancingEntry.getVolume_eq job h (by positivity)]
    apply Share.volume_eq_one
    simp only [BalancingEntry.share]
    rw [one_div_mul_cancel hf.ne']
  have h2 : job.getVolume (job.demand / job.fairShare + epsilon) = job.demand := by
    rw [BalancingEntry.getVolume_eq job h (by positivity)]
    apply Share.volume_eq_demand h
    simp only [BalancingEntry.share]
    rw [add_mul, div_mul_cancel₀ _ hf.ne']
    have := mul_pos heps hf
    linarith
  simp only [fairShareOk, h1, h2, beq_self_eq_true, Bool.and_true, decide_eq_true_eq]
  exact h.demand_pos

theorem Accepted.computeFairShares_eq {events : EventMap} {numWorkers : Nat} {loadFactor : ℚ}
    (h : Accepted events numWorkers loadFactor) (hash : Int → Nat) {vc : VolumeCalculator}
    (hentries : vc.entries = (activeEvents events).map entryOf) (hcount : vc.numDismissedJobs = 0)
    (havail : vc.availableVolume = getAvailableVolume numWorkers loadFactor)
    (hprio : vc.sumOfPriorities = sumOfPriorities events) (hdem : vc.sumOfDemands = 0) :
    ∃ vc', computeFairShares (sortRemainingEntries hash vc) = some vc' ∧
      Shared hash events (getAvailableVolume numWorkers loadFactor) vc' := by
  have hsort : (sortRemainingEntries hash vc).entries = sortedEntries hash events := by
    simp [sortRemainingEntries, hcount, hentries, sortedEntries]
  have hshare : ∀ e, (withFairShare (sortRemainingEntries hash vc) e).share =
      shareFor events (getAvailableVolume numWorkers loadFactor) e := by
    intro e
    have ha : (sortRemainingEntries hash vc).availableVolume = getAvailableVolume numWorkers loadFactor := havail
    have hp : (sortRemainingEntries hash vc).sumOfPriorities = sumOfPriorities events := hprio
    simp [BalancingEntry.share, withFairShare, shareFor, maxReachable, ha, hp, hsort, length_sortedEntries]
  have hall : shares ((sortedEntries hash events).map (withFairShare (sortRemainingEntries hash vc))) =
      jobShares hash events (getAvailableVolume numWorkers loadFactor) := by
    rw [shares, List.map_map, jobShares]
    exact List.map_congr_left fun e _ => hshare e
  have hok : ((sortedEntries hash events).map (withFairShare (sortRemainingEntries hash vc))).all fairShareOk = true := by
    rw [List.all_eq_true]
    intro job hjob
    apply fairShareOk_of_valid
    apply h.valid hash
    rw [← hall]
    exact List.mem_map.mpr ⟨job, hjob, rfl⟩
  rw [computeFairShares, hsort]
  simp only [hok, if_true]
  refine ⟨_, rfl, hall, ?_, havail, ?_, ?_, ?_, ?_⟩
  · rw [slotDemands, List.map_map]
    apply List.map_congr_left
    intro e he
    obtain ⟨ev, _, rfl⟩ := (mem_sortedEntries hash events e).mp he
    rfl
  · simp only [lowestMultiplier, ← hall, shares, List.foldl_map]
    rfl
  · simp only [highestMultiplier, ← hall, shares, List.foldl_map]
    rfl
  · simp only [centerOfMass, ← hall, shares, List.foldl_map, List.length_map]
    rfl
  · have hz : (sortRemainingEntries hash vc).sumOfDemands = 0 := hdem
    simp only [VolumeShares.sumOfDemands, ← hall, shares, List.map_map, List.sum_eq_foldl, List.foldl_map, hz]
    rfl

/-- How the calculation ends: every job gets its demand where there is enough
for all, otherwise the result is the one of the search over the multipliers. -/
inductive Final (hash : Int → Nat) (events : EventMap) (available : Int) (fuel : Nat) (vc : VolumeCalculator) : Prop
  | fulfilled (hperm : (shares vc.entries).Perm (jobShares hash events available))
      (hall : VolumeShares.sumOfDemands (jobShares hash events available) ≤ available)
      (hvolume : ∀ e ∈ vc.entries, e.volume = e.share.demand)
  | searched (r : Run) (hover : Overloaded (jobShares hash events available) available)
      (hrun : bisect (total (jobShares hash events available)) available (flat (jobShares hash events available))
        (probe (centerOfMass (jobShares hash events available))) fuel
        (lowestMultiplier (jobShares hash events available)) (highestMultiplier (jobShares hash events available)) 1 =
        some r)
      (hresult : Result hash (jobShares hash events available) ((sortedEntries hash events).map (·.demand)) available
        (queueAfter r.trail (jobShares hash events available)) vc r.outcome)

theorem Shared.sim {hash : Int → Nat} {events : EventMap} {available : Int} {vc : VolumeCalculator}
    (h : Shared hash events available vc) (hover : Overloaded (jobShares hash events available) available) :
    ∃ rest, shares rest = jobShares hash events available ∧
      Sim (centerOfMass (jobShares hash events available)) (jobShares hash events available)
        ((sortedEntries hash events).map (·.demand)) available [] rest {
          vc := { vc with
            prevLb := -1
            prevUb := -1
            numDismissedJobs := 0
            baseUtilization := 0
            maxVolumeDiffBetweenBounds := 0 }
          lower := vc.minMultiplier
          upper := vc.maxMultiplier
          mid := 1
          bestExcess := -1
          excessAtLeft := vc.availableVolume - vc.entries.length } := by
  have hlow : 0 < vc.minMultiplier := by rw [h.lowest_eq]; exact hover.lowest_pos
  have hupp : 0 < vc.maxMultiplier := by
    rw [h.highest_eq]; exact hover.lowest_pos.trans hover.brackets.lt
  have hvalid : ∀ e ∈ vc.entries, e.share.Valid := by
    intro e he
    apply hover.valid
    rw [← h.shares_eq]
    exact List.mem_map.mpr ⟨e, he, rfl⟩
  obtain ⟨rest, hrest⟩ : ∃ rest, rest = vc.entries.map fun job => { job with
    volumeLower := job.getVolume vc.minMultiplier, volumeUpper := job.getVolume vc.maxMultiplier } := ⟨_, rfl⟩
  have hshares : shares rest = jobShares hash events available := by
    rw [← h.shares_eq, hrest, shares, List.map_map]
    rfl
  have hslots : slotDemands rest = (sortedEntries hash events).map (·.demand) := by
    rw [← h.slots_eq, hrest, slotDemands, List.map_map]
    rfl
  have hlen : (vc.entries.length : Int) = total (jobShares hash events available) vc.minMultiplier := by
    rw [h.lowest_eq, total_eq_length fun s hs => Share.volume_eq_one (hover.lowest_mul_le hs), ← h.shares_eq, shares,
      List.length_map]
  refine ⟨rest, hshares, ?_, by simp [hshares], by simpa using hslots, h.center_eq, ?_, hlow.le, ?_, ?_, ?_,
    by norm_num, ?_⟩
  · refine ⟨by simp [prepared, hrest], rfl, rfl, h.available_eq, by simp, ?_, ?_⟩
    · intro e he
      rw [hrest] at he
      obtain ⟨job, hjob, rfl⟩ := List.mem_map.mp he
      have hl : vc.minMultiplier ≠ -1 := by linarith
      have hu : vc.maxMultiplier ≠ -1 := by linarith
      constructor
      · simp only [cacheVolume, hl, hu, decide_false, Bool.false_eq_true, if_false]
        exact BalancingEntry.getVolume_eq job (hvalid job hjob) hlow.le
      · simp only [cacheVolume, hl, hu, decide_false, Bool.false_eq_true, if_false]
        exact BalancingEntry.getVolume_eq job (hvalid job hjob) hupp.le
    · intro e he
      rw [List.nil_append, hrest] at he
      obtain ⟨job, hjob, rfl⟩ := List.mem_map.mp he
      exact hvalid job hjob
  · rw [h.lowest_eq, h.highest_eq]; exact hover.brackets
  · rw [h.lowest_eq]; exact hover.one_inside.1
  · rw [h.highest_eq]; exact hover.one_inside.2
  · rw [h.lowest_eq, h.highest_eq]; exact hover.guided
  · rw [h.available_eq, hlen]

/-- The calculation returns on every accepted input, with enough fuel for the
search, and none of its assertions fails on the way. -/
theorem calculateResult_ends {events : EventMap} {numWorkers : Nat} {loadFactor : ℚ}
    (h : Accepted events numWorkers loadFactor) (hash : Int → Nat) :
    ∃ vc, new events numWorkers loadFactor = some vc ∧ ∃ N, ∀ fuel, N ≤ fuel → ∃ vc',
      calculateResult hash fuel vc = some vc' ∧
        Final hash events (getAvailableVolume numWorkers loadFactor) fuel vc' := by
  obtain ⟨vc, hnew, hentries, hcount, havail, hprio, hdem⟩ := h.new_eq
  obtain ⟨vc₁, hfair, hsh⟩ := h.computeFairShares_eq hash hentries hcount havail hprio hdem
  have hmany : ¬ vc.availableVolume ≤ vc.entries.length := by
    have := h.enough
    rw [havail, hentries, List.length_map]
    omega
  refine ⟨vc, hnew, ?_⟩
  generalize hA : getAvailableVolume numWorkers loadFactor = available at hsh
  by_cases hle : VolumeShares.sumOfDemands (jobShares hash events available) ≤ available
  · refine ⟨0, fun fuel _ => ?_⟩
    have htriv : vc₁.sumOfDemands ≤ vc₁.availableVolume := by rw [hsh.demands_eq, hsh.available_eq]; exact hle
    rw [calculateResult, if_neg hmany, hfair]
    refine ⟨_, by simp only [Option.bind_eq_bind, Option.bind_some]; exact if_pos htriv, ?_⟩
    apply Final.fulfilled
    · rw [← hsh.shares_eq, shares, shares, List.map_map]
      exact List.Perm.of_eq rfl
    · exact hle
    · intro e he
      obtain ⟨job, _, rfl⟩ := List.mem_map.mp he
      rfl
  · have hover : Overloaded (jobShares hash events available) available := by
      have hmuch := not_le.mp hle
      rw [← hA] at hmuch ⊢
      exact h.overloaded hash hmuch
    obtain ⟨N, hN⟩ := hover.bisect_ends
    obtain ⟨rest, hrest, hsim⟩ := hsh.sim hover
    refine ⟨N, fun fuel hfuel => ?_⟩
    obtain ⟨r, hr⟩ := hN fuel hfuel
    have hr' := hr
    rw [← hsh.lowest_eq, ← hsh.highest_eq] at hr'
    obtain ⟨vc', hs, hres⟩ := search_refines hash fuel hsim hr'
    have htriv : ¬ vc₁.sumOfDemands ≤ vc₁.availableVolume := by rw [hsh.demands_eq, hsh.available_eq]; exact hle
    rw [calculateResult, if_neg hmany, hfair]
    refine ⟨vc', ?_, Final.searched r hover hr (by rw [← hrest]; simpa only [hrest] using hres)⟩
    simp only [Option.bind_eq_bind, Option.bind_some, if_neg htriv]
    exact hs

end Mallob.VolumeResult
