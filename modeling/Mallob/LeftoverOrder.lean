import Mallob.VolumeAssignment

namespace Mallob.LeftoverOrder

open VolumeCalculator VolumeSweep VolumeSearch VolumeShares VolumeResult VolumeAssignment Bisection

def slotEntry (s : Share) (slot : Int) : BalancingEntry :=
  { BalancingEntry.new s.jobId s.demand s.priority with originalDemand := slot, fairShare := s.fairShare }

/-- The jobs still open after the given ranges in the order in which they
receive the left-over units. Sorting all jobs first gave every slot a demand,
which stayed with the slot while the jobs were swapped through the slots. -/
def leftoverOrder (hash : Int → Nat) (events : EventMap) (available : Int) (trail : List (ℚ × ℚ)) : List Share :=
  let queue := queueAfter trail (jobShares hash events available)
  let slots := (sortedEntries hash events).map (·.demand)
  (sortEntries hash (List.zipWith slotEntry queue (slots.drop (slots.length - queue.length)))).map (·.share)

def demandOf (events : EventMap) (jobId : Int) : Int := (events.map[jobId]?).elim 0 (·.demand)

def multiplierSearch (hash : Int → Nat) (events : EventMap) (available : Int) (fuel : Nat) : Option Run :=
  bisect (total (jobShares hash events available)) available (flat (jobShares hash events available))
    (probe (centerOfMass (jobShares hash events available))) fuel
    (lowestMultiplier (jobShares hash events available)) (highestMultiplier (jobShares hash events available)) 1

/-- Where the demands exceed the available volume and units are left over, no
job with one of these units stands before a job of the same priority and of a
higher demand without one. -/
def LeftoversByDemand (hash : Int → Nat) (events : EventMap) (available : Int) : Prop :=
  available < VolumeShares.sumOfDemands (jobShares hash events available) →
  ∀ fuel trail lower upper, multiplierSearch hash events available fuel = some ⟨trail, .narrow lower upper⟩ →
    ∀ s ∈ (leftoverOrder hash events available trail).take
      (available - total (jobShares hash events available) lower).toNat,
    ∀ t ∈ (leftoverOrder hash events available trail).drop
      (available - total (jobShares hash events available) lower).toNat,
    s.priority = t.priority → demandOf events t.jobId ≤ demandOf events s.jobId

def volumeOf (vc : VolumeCalculator) (jobId : Int) : Int :=
  ((vc.entries.find? fun e => e.jobId == jobId).map (·.volume)).getD 0

def MonotoneVolumes (events : EventMap) (vc : VolumeCalculator) : Prop :=
  ∀ (i j : Int) (evi evj : Event), events.map[i]? = some evi → events.map[j]? = some evj →
    evj.priority ≤ evi.priority → evj.demand < evi.demand → volumeOf vc j ≤ volumeOf vc i

section order

variable {hash : Int → Nat} {events : EventMap} {available : Int} {vc : VolumeCalculator}

theorem entryBefore_slotEntry (hash : Int → Nat) (a b : BalancingEntry) :
    entryBefore hash (slotEntry a.share a.originalDemand) (slotEntry b.share b.originalDemand) =
      entryBefore hash a b := rfl

theorem zipWith_slotEntry (es : List BalancingEntry) :
    List.zipWith slotEntry (shares es) (slotDemands es) = es.map fun e => slotEntry e.share e.originalDemand := by
  induction es with
  | nil => rfl
  | cons e es ih => rw [shares_cons, slotDemands_cons, List.zipWith_cons_cons, ih, List.map_cons]

/-- Sorting the entries orders the jobs as sorting the jobs in their slots does. -/
theorem shares_sortEntries (hash : Int → Nat) (es : List BalancingEntry) :
    shares (sortEntries hash es) =
      (sortEntries hash (List.zipWith slotEntry (shares es) (slotDemands es))).map (·.share) := by
  rw [zipWith_slotEntry, sortEntries, sortEntries, shares,
    ← List.map_insertionSort (fun a b => (!entryBefore hash b a) = true) _
      (fun e : BalancingEntry => slotEntry e.share e.originalDemand) es
      (fun a _ b _ => by rw [entryBefore_slotEntry]), List.map_map]
  rfl

theorem shares_kept {trail : List (ℚ × ℚ)} {lower upper : ℚ} {dismissed kept : List BalancingEntry}
    (h : NarrowResult hash (jobShares hash events available) ((sortedEntries hash events).map (·.demand)) available
      (queueAfter trail (jobShares hash events available)) lower upper dismissed kept vc) :
    shares (sortEntries hash kept) = leftoverOrder hash events available trail := by
  have hslots := h.slots_eq
  rw [slotDemands_append] at hslots
  have hlen : (slotDemands dismissed ++ slotDemands kept).length - (shares kept).length =
      (slotDemands dismissed).length := by simp [slotDemands, shares]
  rw [shares_sortEntries, leftoverOrder]
  simp only [← hslots, ← h.queue_eq, hlen, List.drop_left]

/-- A job that could still gain a unit has the volume which every job with the
same fair share and no smaller demand has there. -/
theorem volume_eq_of_open {s t : Share} {x : ℚ} (hopen : s.volume x < s.demand) (hf : t.fairShare = s.fairShare)
    (hd : s.demand ≤ t.demand) : t.volume x = s.volume x := by
  simp only [Share.volume, hf] at *
  omega

theorem shares_sortEntries_pairwise (hash : Int → Nat) (es : List BalancingEntry) :
    (shares (sortEntries hash es)).Pairwise fun s t => t.priority ≤ s.priority := by
  rw [shares, List.pairwise_map]
  exact sortEntries_pairwise hash es

theorem priority_le_of_take {u : Nat} {ss : List Share} (h : ss.Pairwise fun s t => t.priority ≤ s.priority)
    {s t : Share} (hs : s ∈ ss.take u) (ht : t ∈ ss.drop u) : t.priority ≤ s.priority := by
  rw [← List.take_append_drop u ss] at h
  exact (List.pairwise_append.mp h).2.2 s hs t ht

section narrow

variable {ss : List Share} {slots : List Int} {queue : List Share} {lower upper : ℚ}
  {dismissed kept : List BalancingEntry}
  (h : NarrowResult hash ss slots available queue lower upper dismissed kept vc)

include h

/-- A job is either dismissed with its volume, or it has a left-over unit, or
it stays at the volume of the lower end. -/
theorem entry_cases {e : BalancingEntry} (he : e ∈ vc.entries) :
    Fixed lower upper e ∨
    (e.share ∈ (shares (sortEntries hash kept)).take (available - total ss lower).toNat ∧
      e.volume = e.share.volume upper) ∨
    (e.share ∈ (shares (sortEntries hash kept)).drop (available - total ss lower).toNat ∧
      e.volume = e.share.volume lower) := by
  rw [h.entries_eq, handOut_fst, List.mem_append, List.mem_append, List.mem_map, List.mem_map] at he
  rcases he with hd | ⟨e₀, h₀, rfl⟩ | ⟨e₀, h₀, rfl⟩
  · exact Or.inl (h.fixed e hd)
  · have hk : e₀ ∈ kept := mem_sortEntries.mp (List.mem_of_mem_take h₀)
    refine Or.inr (Or.inl ⟨?_, (h.upper_eq e₀ hk).symm⟩)
    rw [shares, ← List.map_take]
    exact List.mem_map.mpr ⟨e₀, h₀, rfl⟩
  · have hk : e₀ ∈ kept := mem_sortEntries.mp (List.mem_of_mem_drop h₀)
    refine Or.inr (Or.inr ⟨?_, h.lower_eq e₀ hk⟩)
    rw [shares, ← List.map_drop]
    exact List.mem_map.mpr ⟨e₀, h₀, rfl⟩

theorem exists_of_take {s : Share}
    (hs : s ∈ (shares (sortEntries hash kept)).take (available - total ss lower).toNat) :
    s.volume upper = s.volume lower + 1 ∧ ∃ e ∈ vc.entries, e.share = s ∧ e.volume = s.volume upper := by
  rw [shares, ← List.map_take] at hs
  obtain ⟨e₀, h₀, rfl⟩ := List.mem_map.mp hs
  have hk : e₀ ∈ kept := mem_sortEntries.mp (List.mem_of_mem_take h₀)
  refine ⟨by rw [h.upper_eq e₀ hk, h.lower_eq e₀ hk], { e₀ with volume := e₀.volumeLower + 1 }, ?_, rfl,
    (h.upper_eq e₀ hk).symm⟩
  rw [h.entries_eq, handOut_fst]
  simp only [List.mem_append, List.mem_map]
  exact Or.inr (Or.inl ⟨e₀, h₀, rfl⟩)

theorem exists_of_drop {s : Share}
    (hs : s ∈ (shares (sortEntries hash kept)).drop (available - total ss lower).toNat) :
    ∃ e ∈ vc.entries, e.share = s ∧ e.volume = s.volume lower := by
  rw [shares, ← List.map_drop] at hs
  obtain ⟨e₀, h₀, rfl⟩ := List.mem_map.mp hs
  refine ⟨{ e₀ with volume := e₀.volumeLower }, ?_, rfl, h.lower_eq e₀ (mem_sortEntries.mp (List.mem_of_mem_drop h₀))⟩
  rw [h.entries_eq, handOut_fst]
  simp only [List.mem_append, List.mem_map]
  exact Or.inr (Or.inr ⟨e₀, h₀, rfl⟩)

end narrow

theorem nodup_activeEvents (events : EventMap) : ((activeEvents events).map (·.jobId)).Nodup := by
  have hkeys : (events.getEntries.map Prod.snd).map (·.jobId) = events.getEntries.map Prod.fst := by
    rw [List.map_map]
    apply List.map_congr_left
    rintro ⟨k, ev⟩ hk
    exact events.keyed k ev ((EventMap.mem_getEntries events k ev).mp hk)
  have hnodup := events.nodup_keys
  rw [← hkeys] at hnodup
  exact hnodup.sublist (List.filter_sublist.map _)

theorem volumeOf_eq (hnodup : (vc.entries.map (·.jobId)).Nodup) {e : BalancingEntry} (he : e ∈ vc.entries) :
    volumeOf vc e.jobId = e.volume := by
  have hinj := List.inj_on_of_nodup_map hnodup
  have hfind : ∃ e', vc.entries.find? (fun x => x.jobId == e.jobId) = some e' := by
    rw [← Option.isSome_iff_exists, List.find?_isSome]
    exact ⟨e, he, by simp⟩
  obtain ⟨e', h'⟩ := hfind
  have hid : e'.jobId = e.jobId := by simpa using List.find?_some h'
  rw [volumeOf, h', hinj (List.mem_of_find?_eq_some h') he hid]
  rfl

theorem demandOf_eq {ev : Event} (hev : events.map[ev.jobId]? = some ev) : demandOf events ev.jobId = ev.demand := by
  rw [demandOf, hev]; rfl

section result

variable (hperm : (shares vc.entries).Perm (jobShares hash events available))

include hperm

theorem nodup_entries : (vc.entries.map (·.jobId)).Nodup := by
  have hids : vc.entries.map (·.jobId) = (shares vc.entries).map (·.jobId) := by
    rw [shares, List.map_map]; rfl
  rw [hids]
  exact ((hperm.map _).trans (jobIds_jobShares hash events available)).nodup_iff.mpr (nodup_activeEvents events)

theorem event_of_entry {e : BalancingEntry} (he : e ∈ vc.entries) :
    ∃ ev ∈ activeEvents events, e.share = shareFor events available (entryOf ev) :=
  mem_jobShares (hperm.mem_iff.mp (List.mem_map.mpr ⟨e, he, rfl⟩))

theorem entry_of_event {ev : Event} (hev : ev ∈ activeEvents events) :
    ∃ e ∈ vc.entries, e.share = shareFor events available (entryOf ev) := by
  have hs : shareFor events available (entryOf ev) ∈ shares vc.entries :=
    hperm.mem_iff.mpr (List.mem_map.mpr ⟨_, (mem_sortedEntries hash events _).mpr ⟨ev, hev, rfl⟩, rfl⟩)
  exact List.mem_map.mp hs

theorem volumeOf_of_zero {k : Int} {ev : Event} (hk : events.map[k]? = some ev) (h0 : ev.demand = 0) :
    volumeOf vc k = 0 := by
  have hnone : vc.entries.find? (fun e => e.jobId == k) = none := by
    rw [List.find?_eq_none]
    intro e he hid
    obtain ⟨ev', hev', hs⟩ := event_of_entry hperm he
    obtain ⟨hk', hne⟩ := (mem_activeEvents events ev').mp hev'
    have hid' : e.jobId = ev'.jobId := congrArg Share.jobId hs
    rw [← hid', beq_iff_eq.mp hid, hk] at hk'
    exact hne (Option.some.inj hk' ▸ h0)
  rw [volumeOf, hnone]
  rfl

theorem monotoneVolumes_iff (hpos : ∀ e ∈ vc.entries, 1 ≤ e.volume)
    (hnonneg : ∀ (k : Int) (ev : Event), events.map[k]? = some ev → 0 ≤ ev.demand) :
    MonotoneVolumes events vc ↔ ∀ e ∈ vc.entries, ∀ e' ∈ vc.entries, e'.priority ≤ e.priority →
      demandOf events e'.jobId < demandOf events e.jobId → e'.volume ≤ e.volume := by
  have hnodup := nodup_entries hperm
  constructor
  · intro hm e he e' he' hp hd
    obtain ⟨ev, hev, hs⟩ := event_of_entry hperm he
    obtain ⟨ev', hev', hs'⟩ := event_of_entry hperm he'
    have hk := ((mem_activeEvents events ev).mp hev).1
    have hk' := ((mem_activeEvents events ev').mp hev').1
    have hid : e.jobId = ev.jobId := congrArg Share.jobId hs
    have hid' : e'.jobId = ev'.jobId := congrArg Share.jobId hs'
    have hprio : e.priority = ev.priority := congrArg Share.priority hs
    have hprio' : e'.priority = ev'.priority := congrArg Share.priority hs'
    rw [hid, hid', demandOf_eq hk, demandOf_eq hk'] at hd
    rw [← volumeOf_eq hnodup he, ← volumeOf_eq hnodup he', hid, hid']
    exact hm _ _ ev ev' hk hk' (by rw [← hprio, ← hprio']; exact hp) hd
  · intro hm i j evi evj hi hj hp hd
    have hposi : evi.demand ≠ 0 := by have := hnonneg j evj hj; omega
    obtain rfl : evi.jobId = i := events.keyed i evi hi
    obtain rfl : evj.jobId = j := events.keyed j evj hj
    obtain ⟨e, he, hs⟩ := entry_of_event hperm ((mem_activeEvents events evi).mpr ⟨hi, hposi⟩)
    have hid : e.jobId = evi.jobId := congrArg Share.jobId hs
    have hprio : e.priority = evi.priority := congrArg Share.priority hs
    rw [← hid, volumeOf_eq hnodup he]
    by_cases hzero : evj.demand = 0
    · rw [volumeOf_of_zero hperm hj hzero]
      exact zero_le_one.trans (hpos e he)
    · obtain ⟨e', he', hs'⟩ := entry_of_event hperm ((mem_activeEvents events evj).mpr ⟨hj, hzero⟩)
      have hid' : e'.jobId = evj.jobId := congrArg Share.jobId hs'
      have hprio' : e'.priority = evj.priority := congrArg Share.priority hs'
      rw [← hid', volumeOf_eq hnodup he']
      exact hm e he e' he' (by rw [hprio, hprio']; exact hp)
        (by rw [hid, hid', demandOf_eq hi, demandOf_eq hj]; exact hd)

end result

end order

section accepted

variable {hash : Int → Nat} {events : EventMap} {numWorkers : Nat} {loadFactor : ℚ} {vc : VolumeCalculator}
  (h : Accepted events numWorkers loadFactor)
  (hperm : (shares vc.entries).Perm (jobShares hash events (getAvailableVolume numWorkers loadFactor)))

include h hperm

theorem share_le {e e' : BalancingEntry} (he : e ∈ vc.entries) (he' : e' ∈ vc.entries) (hp : e'.priority ≤ e.priority)
    (hd : demandOf events e'.jobId < demandOf events e.jobId) :
    e'.share.demand ≤ e.share.demand ∧ e'.share.fairShare ≤ e.share.fairShare := by
  obtain ⟨ev, hev, hs⟩ := event_of_entry hperm he
  obtain ⟨ev', hev', hs'⟩ := event_of_entry hperm he'
  have hid : e.jobId = ev.jobId := congrArg Share.jobId hs
  have hid' : e'.jobId = ev'.jobId := congrArg Share.jobId hs'
  have hprio : e.priority = ev.priority := congrArg Share.priority hs
  have hprio' : e'.priority = ev'.priority := congrArg Share.priority hs'
  rw [hid, hid', demandOf_eq ((mem_activeEvents events ev).mp hev).1,
    demandOf_eq ((mem_activeEvents events ev').mp hev').1] at hd
  rw [hprio, hprio'] at hp
  have hP := h.sumOfPriorities_pos hev
  have hA := h.available_pos.le
  rw [hs, hs']
  constructor
  · exact min_le_min_right _ hd.le
  · simp only [shareFor, entryOf, BalancingEntry.new]
    gcongr

omit h in
theorem fairShare_eq {e e' : BalancingEntry} (he : e ∈ vc.entries) (he' : e' ∈ vc.entries)
    (hp : e'.priority = e.priority) : e'.share.fairShare = e.share.fairShare := by
  obtain ⟨ev, _, hs⟩ := event_of_entry hperm he
  obtain ⟨ev', _, hs'⟩ := event_of_entry hperm he'
  have hprio : e.priority = ev.priority := congrArg Share.priority hs
  have hprio' : e'.priority = ev'.priority := congrArg Share.priority hs'
  rw [hs, hs']
  simp only [shareFor, entryOf, BalancingEntry.new]
  rw [← hprio, ← hprio', hp]

/-- Without a left-over unit volumes are monotone, whatever was swapped. -/
theorem monotone_at {x : ℚ} (hx : 0 ≤ x) (hvolume : ∀ e ∈ vc.entries, e.volume = e.share.volume x)
    {e e' : BalancingEntry} (he : e ∈ vc.entries) (he' : e' ∈ vc.entries) (hp : e'.priority ≤ e.priority)
    (hd : demandOf events e'.jobId < demandOf events e.jobId) : e'.volume ≤ e.volume := by
  obtain ⟨hdem, hfair⟩ := share_le h hperm he he' hp hd
  rw [hvolume e he, hvolume e' he']
  exact Share.volume_le_volume hx hdem hfair

end accepted

section narrow

variable {hash : Int → Nat} {events : EventMap} {numWorkers : Nat} {loadFactor : ℚ} {vc : VolumeCalculator}
  {ss : List Share} {slots : List Int} {queue : List Share} {lower upper : ℚ} {dismissed kept : List BalancingEntry}
  (h : Accepted events numWorkers loadFactor)
  (hperm : (shares vc.entries).Perm (jobShares hash events (getAvailableVolume numWorkers loadFactor)))
  (hn : NarrowResult hash ss slots (getAvailableVolume numWorkers loadFactor) queue lower upper dismissed kept vc)

include h hperm hn

theorem monotone_of_byDemand
    (hby : ∀ s ∈ (shares (sortEntries hash kept)).take (getAvailableVolume numWorkers loadFactor - total ss lower).toNat,
      ∀ t ∈ (shares (sortEntries hash kept)).drop (getAvailableVolume numWorkers loadFactor - total ss lower).toNat,
      s.priority = t.priority → demandOf events t.jobId ≤ demandOf events s.jobId)
    {e e' : BalancingEntry} (he : e ∈ vc.entries) (he' : e' ∈ vc.entries) (hp : e'.priority ≤ e.priority)
    (hd : demandOf events e'.jobId < demandOf events e.jobId) : e'.volume ≤ e.volume := by
  obtain ⟨hdem, hfair⟩ := share_le h hperm he he' hp hd
  have hlow : e'.share.volume lower ≤ e.share.volume lower := Share.volume_le_volume hn.nonneg hdem hfair
  have hupp : e'.share.volume upper ≤ e.share.volume upper :=
    Share.volume_le_volume (hn.nonneg.trans hn.le) hdem hfair
  have hge : e.share.volume lower ≤ e.volume := (NarrowResult.bounds hn e he).2.1
  rcases entry_cases hn he' with hf | ⟨htake, hv⟩ | ⟨_, hv⟩
  · rw [hf.lower_eq]; exact hlow.trans hge
  · rcases entry_cases hn he with hf | ⟨_, hv'⟩ | ⟨hdrop, _⟩
    · rw [hv, hf.upper_eq]; exact hupp
    · rw [hv, hv']; exact hupp
    · have hprio : e.priority ≤ e'.priority :=
        priority_le_of_take (shares_sortEntries_pairwise hash kept) htake hdrop
      have := hby e'.share htake e.share hdrop (le_antisymm hp hprio)
      exact absurd hd (not_lt.mpr this)
  · rw [hv]; exact hlow.trans hge

theorem byDemand_of_monotone
    (hm : ∀ e ∈ vc.entries, ∀ e' ∈ vc.entries, e'.priority ≤ e.priority →
      demandOf events e'.jobId < demandOf events e.jobId → e'.volume ≤ e.volume)
    {s t : Share}
    (hs : s ∈ (shares (sortEntries hash kept)).take (getAvailableVolume numWorkers loadFactor - total ss lower).toNat)
    (ht : t ∈ (shares (sortEntries hash kept)).drop (getAvailableVolume numWorkers loadFactor - total ss lower).toNat)
    (hp : s.priority = t.priority) : demandOf events t.jobId ≤ demandOf events s.jobId := by
  by_contra hlt
  obtain ⟨hgain, e', he', rfl, hv'⟩ := exists_of_take hn hs
  obtain ⟨e, he, rfl, hv⟩ := exists_of_drop hn ht
  have hvalid : e'.share.Valid := h.valid hash (hperm.mem_iff.mp (List.mem_map.mpr ⟨e', he', rfl⟩))
  have hopen : e'.share.volume lower < e'.share.demand := by
    have := Share.volume_le hvalid upper
    omega
  have heq : e.share.volume lower = e'.share.volume lower :=
    volume_eq_of_open hopen (fairShare_eq hperm he' he hp.symm) (share_le h hperm he he' hp.le (not_le.mp hlt)).1
  have := hm e he e' he' hp.le (not_le.mp hlt)
  omega

end narrow

theorem multiplierSearch_unique {hash : Int → Nat} {events : EventMap} {available : Int} {fuel fuel' : Nat} {r r' : Run}
    (h : multiplierSearch hash events available fuel = some r)
    (h' : multiplierSearch hash events available fuel' = some r') : r = r' := by
  rcases le_total fuel fuel' with hle | hle
  · have := bisect_fuel_mono hle h
    exact Option.some.inj (this.symm.trans h')
  · have := bisect_fuel_mono hle h'
    exact Option.some.inj (h.symm.trans this)

theorem Final.monotone_iff {hash : Int → Nat} {events : EventMap} {numWorkers : Nat} {loadFactor : ℚ} {fuel : Nat}
    {vc : VolumeCalculator} (h : Accepted events numWorkers loadFactor)
    (hf : Final hash events (getAvailableVolume numWorkers loadFactor) fuel vc) :
    MonotoneVolumes events vc ↔ LeftoversByDemand hash events (getAvailableVolume numWorkers loadFactor) := by
  have hperm := Final.shares_perm hf
  have hpos : ∀ e ∈ vc.entries, 1 ≤ e.volume := fun e he => (Final.bounds (fun s hs => h.valid hash hs) hf he).1
  rw [monotoneVolumes_iff hperm hpos h.demand_nonneg]
  cases hf with
  | fulfilled _ hall hvolume =>
      refine iff_of_true ?_ (fun hlt => absurd hlt (not_lt.mpr hall))
      intro e he e' he' hp hd
      rw [hvolume e he, hvolume e' he']
      exact (share_le h hperm he he' hp hd).1
  | searched r hover hrun hresult =>
      rcases r with ⟨trail, x | ⟨lower, upper⟩⟩
      · refine iff_of_true ?_ ?_
        · intro e he e' he' hp hd
          exact monotone_at h hperm (ExactResult.nonneg hresult) (ExactResult.volume_eq hresult) he he' hp hd
        · intro _ fuel' trail' lower upper hrun'
          have := multiplierSearch_unique hrun hrun'
          simp at this
      · obtain ⟨dismissed, kept, hn⟩ := hresult
        have horder := shares_kept hn
        constructor
        · intro hm _ fuel' trail' lower' upper' hrun' s hs t ht hp
          obtain ⟨rfl, rfl, rfl⟩ : trail = trail' ∧ lower = lower' ∧ upper = upper' := by
            simpa using multiplierSearch_unique hrun hrun'
          rw [← horder] at hs ht
          exact byDemand_of_monotone h hperm hn hm hs ht hp
        · intro hby e he e' he' hp hd
          refine monotone_of_byDemand h hperm hn ?_ he he' hp hd
          rw [horder]
          exact hby hover.much fuel trail lower upper hrun

/-- The volumes respect the order by priority and demand exactly when the
left-over units do. -/
theorem calculateResult_monotone_iff {events : EventMap} {numWorkers : Nat} {loadFactor : ℚ}
    (h : Accepted events numWorkers loadFactor) (hash : Int → Nat) :
    ∃ vc, new events numWorkers loadFactor = some vc ∧ ∃ N, ∀ fuel, N ≤ fuel → ∃ vc',
      calculateResult hash fuel vc = some vc' ∧
      (MonotoneVolumes events vc' ↔ LeftoversByDemand hash events (getAvailableVolume numWorkers loadFactor)) := by
  obtain ⟨vc, hnew, N, hN⟩ := calculateResult_ends h hash
  refine ⟨vc, hnew, N, fun fuel hfuel => ?_⟩
  obtain ⟨vc', hcalc, hfinal⟩ := hN fuel hfuel
  exact ⟨vc', hcalc, Final.monotone_iff h hfinal⟩

end Mallob.LeftoverOrder
