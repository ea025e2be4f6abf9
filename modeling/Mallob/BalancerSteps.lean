import Mallob.EventDrivenBalancer

namespace Mallob.BalancerSteps

open EventDrivenBalancer BalancerTree BalancerSystem

variable {cfg : BalancerConfig}

def broadcasts (cfg : BalancerConfig) (rank : Nat) (data : EventMap) : List (Network.Envelope BalancerTag EventMap) :=
  (childRanks cfg.size rank).map fun child => ⟨.broadcastData, child, data⟩

/-- What becomes of the diffs d of a rank: they stay, they go to the parent,
or the root digests and broadcasts them. -/
inductive Outcome (cfg : BalancerConfig) (rank : Nat) (b : EventDrivenBalancer) (d : EventMap) :
    EventDrivenBalancer × List (Network.Envelope BalancerTag EventMap) → Prop
  | kept : Outcome cfg rank b d ({ b with diffs := d }, [])
  | sent (hr : rank ≠ 0) :
      Outcome cfg rank b d ({ b with diffs := d.clear }, [⟨.reduceData, parentRank rank, d⟩])
  | digested (hr : rank = 0) (b' : EventDrivenBalancer)
      (hd : digest cfg { b with diffs := d.setGlobalEpoch (b.balancingEpoch + 1) }
        (d.setGlobalEpoch (b.balancingEpoch + 1)) = .ok b') :
      Outcome cfg rank b d (b', broadcasts cfg rank (d.setGlobalEpoch (b.balancingEpoch + 1)))

def Refreshes (d m : EventMap) : Prop :=
  ∀ k : Int, (∀ ev, m.map[k]? = some ev → 0 ≤ ev.epoch) → d.map[k]? = m.map[k]?

theorem refreshes_clear (m : EventMap) : Refreshes (m.clear.updateBy m).1 m := by
  intro k hk
  rw [EventMap.lookup_updateBy, EventMap.lookup_clear]
  cases h : m.map[k]? with
  | none => rfl
  | some ev => exact EventMap.newer_none (hk ev h)

theorem leaf_childless {size r : Nat} (h : isLeaf r = true) : childRanks size r = [] := by
  rw [List.eq_nil_iff_forall_not_mem]
  intro c hc
  obtain ⟨hne, _, rfl⟩ := mem_childRanks.mp hc
  obtain ⟨k, m, hm, rfl⟩ := exists_odd hne
  rw [parentRank_eq hm] at h
  obtain ⟨q, rfl⟩ : ∃ q, m = 2 * q + 1 := ⟨m / 2, by omega⟩
  have : 2 ^ k * (2 * q + 1) - 2 ^ k = 2 * (2 ^ k * q) := by
    have : 2 ^ k * (2 * q + 1) = 2 * (2 ^ k * q) + 2 ^ k := by ring
    omega
  simp [isLeaf, this] at h

theorem handleBroadcast_ok {rank : Nat} {b : EventDrivenBalancer} {data : EventMap}
    {r : EventDrivenBalancer × List (Network.Envelope BalancerTag EventMap)}
    (h : handleBroadcast cfg rank b data = .ok r) :
    ∃ b', digest cfg b data = .ok b' ∧ r = (b', broadcasts cfg rank data) := by
  obtain ⟨b', hd, rfl⟩ := Runs.exists_of_map_eq_ok h
  refine ⟨b', hd, ?_⟩
  by_cases hl : isLeaf rank = true
  · simp [hl, broadcasts, leaf_childless]
  · simp [hl, broadcasts]

theorem handleReduce_ok {rank : Nat} {b : EventDrivenBalancer} {data : EventMap} {ready : Bool}
    {r : EventDrivenBalancer × List (Network.Envelope BalancerTag EventMap)}
    (h : handleReduce cfg rank b data ready = .ok r) : Outcome cfg rank b (b.diffs.updateBy data).1 r := by
  simp only [handleReduce] at h
  split at h
  · split at h
    · next hroot =>
        obtain ⟨b', hd, rfl⟩ := handleBroadcast_ok h
        exact .digested (by simpa [isRoot] using hroot) b' hd
    · next hroot =>
        obtain rfl := Except.ok.inj h
        exact .sent (by simpa [isRoot] using hroot)
  · obtain rfl := Except.ok.inj h
    exact .kept

theorem Outcome.of_diffs {rank : Nat} {b : EventDrivenBalancer} {d d' : EventMap}
    {r : EventDrivenBalancer × List (Network.Envelope BalancerTag EventMap)}
    (h : Outcome cfg rank { b with diffs := d' } d r) : Outcome cfg rank b d r := by
  cases h with
  | kept => exact .kept
  | sent hr => exact .sent hr
  | digested hr b' hd => exact .digested hr b' hd

theorem advance_ok {rank : Nat} {b : EventDrivenBalancer} {ready : Bool}
    {r : EventDrivenBalancer × List (Network.Envelope BalancerTag EventMap)}
    (h : advance cfg rank b ready = .ok r) : ∃ d, Refreshes d b.diffs ∧ Outcome cfg rank b d r := by
  rw [advance] at h
  split at h
  · obtain rfl := Except.ok.inj h
    exact ⟨b.diffs, fun _ _ => rfl, .kept⟩
  · split at h
    · have h' : handleReduce cfg rank { b with diffs := b.diffs.clear } b.diffs true = .ok r := h
      exact ⟨_, refreshes_clear b.diffs, (handleReduce_ok h').of_diffs⟩
    · obtain rfl := Except.ok.inj h
      exact ⟨b.diffs, fun _ _ => rfl, .kept⟩

theorem pushEvent_ok {rank : Nat} {b : EventDrivenBalancer} {event : Event} {ready : Bool}
    {r : EventDrivenBalancer × List (Network.Envelope BalancerTag EventMap)}
    (h : pushEvent cfg rank b event ready = .ok r) :
    ∃ d, Refreshes d (b.diffs.insertIfNovel event).1 ∧ Outcome cfg rank b d r := by
  simp only [pushEvent] at h
  split at h
  · obtain ⟨d, hd, ho⟩ := advance_ok h
    exact ⟨d, hd, ho.of_diffs⟩
  · obtain rfl := Except.ok.inj h
    exact ⟨_, fun _ _ => rfl, .kept⟩

inductive StepCase (cfg : BalancerConfig) (s : BalancerSystem) : BalancerAction → BalancerSystem → Prop
  | idle (a : BalancerAction) (h : ∀ rank event ready, a = .pushEvent rank event ready → cfg.size ≤ rank) :
      StepCase cfg s a s
  | pushed (rank : Nat) (event : Event) (ready : Bool) (hr : rank < cfg.size) (d : EventMap)
      (r : EventDrivenBalancer × List (Network.Envelope BalancerTag EventMap))
      (hd : Refreshes d ((s.ranks rank).diffs.insertIfNovel event).1)
      (ho : Outcome cfg rank (s.ranks rank) d r) :
      StepCase cfg s (.pushEvent rank event ready) (afterwards s rank s.net r)
  | advanced (rank : Nat) (ready : Bool) (hr : rank < cfg.size) (d : EventMap)
      (r : EventDrivenBalancer × List (Network.Envelope BalancerTag EventMap))
      (hd : Refreshes d (s.ranks rank).diffs) (ho : Outcome cfg rank (s.ranks rank) d r) :
      StepCase cfg s (.advance rank ready) (afterwards s rank s.net r)
  | reduced (source rank : Nat) (ready : Bool) (hr : rank < cfg.size) (data : EventMap)
      (net : Network.Net BalancerTag EventMap) (ht : Network.take s.net .reduceData source rank = some (data, net))
      (r : EventDrivenBalancer × List (Network.Envelope BalancerTag EventMap))
      (ho : Outcome cfg rank (s.ranks rank) ((s.ranks rank).diffs.updateBy data).1 r) :
      StepCase cfg s (.deliver .reduceData source rank ready) (afterwards s rank net r)
  | broadcast (source rank : Nat) (ready : Bool) (hr : rank < cfg.size) (data : EventMap)
      (net : Network.Net BalancerTag EventMap) (ht : Network.take s.net .broadcastData source rank = some (data, net))
      (b : EventDrivenBalancer) (hd : digest cfg (s.ranks rank) data = .ok b) :
      StepCase cfg s (.deliver .broadcastData source rank ready)
        (afterwards s rank net (b, broadcasts cfg rank data))

theorem step_cases {s s' : BalancerSystem} {a : BalancerAction} (h : step cfg s a = .ok s') :
    StepCase cfg s a s' := by
  cases a with
  | pushEvent rank event ready =>
      rw [step] at h
      split at h
      · next hr =>
          obtain ⟨r, hp, rfl⟩ := Runs.exists_of_map_eq_ok h
          obtain ⟨d, hd, ho⟩ := pushEvent_ok hp
          exact .pushed rank event ready hr d r hd ho
      · next hr =>
          obtain rfl := Except.ok.inj h
          refine .idle _ ?_
          intro rank' _ _ heq
          cases heq
          exact not_lt.mp hr
  | advance rank ready =>
      rw [step] at h
      split at h
      · next hr =>
          obtain ⟨r, hp, rfl⟩ := Runs.exists_of_map_eq_ok h
          obtain ⟨d, hd, ho⟩ := advance_ok hp
          exact .advanced rank ready hr d r hd ho
      · obtain rfl := Except.ok.inj h
        exact .idle _ (by simp)
  | deliver tag source rank ready =>
      rw [step] at h
      split at h
      · next hr =>
          split at h
          · obtain rfl := Except.ok.inj h
            exact .idle _ (by simp)
          · next data net ht =>
              obtain ⟨r, hp, rfl⟩ := Runs.exists_of_map_eq_ok h
              cases tag with
              | reduceData => exact .reduced source rank ready hr data net ht r (handleReduce_ok hp)
              | broadcastData =>
                  obtain ⟨b, hd, rfl⟩ := handleBroadcast_ok hp
                  exact .broadcast source rank ready hr data net ht b hd
      · obtain rfl := Except.ok.inj h
        exact .idle _ (by simp)

def RootFault (cfg : BalancerConfig) (rank : Nat) (b : EventDrivenBalancer) (d : EventMap) (f : Fault) : Prop :=
  rank = 0 ∧ digest cfg { b with diffs := d.setGlobalEpoch (b.balancingEpoch + 1) }
    (d.setGlobalEpoch (b.balancingEpoch + 1)) = .error f

theorem map_error {α β : Type} {x : Except Fault α} {f : α → β} {e : Fault} (h : x.map f = .error e) :
    x = .error e := by
  cases x with
  | error e' => cases h; rfl
  | ok a => cases h

theorem handleReduce_error {rank : Nat} {b : EventDrivenBalancer} {data : EventMap} {ready : Bool} {f : Fault}
    (h : handleReduce cfg rank b data ready = .error f) : RootFault cfg rank b (b.diffs.updateBy data).1 f := by
  simp only [handleReduce] at h
  split at h
  · split at h
    · next hroot => exact ⟨by simpa [isRoot] using hroot, map_error h⟩
    · cases h
  · cases h

theorem RootFault.of_diffs {rank : Nat} {b : EventDrivenBalancer} {d d' : EventMap} {f : Fault}
    (h : RootFault cfg rank { b with diffs := d' } d f) : RootFault cfg rank b d f := ⟨h.1, h.2⟩

theorem advance_error {rank : Nat} {b : EventDrivenBalancer} {ready : Bool} {f : Fault}
    (h : advance cfg rank b ready = .error f) : ∃ d, Refreshes d b.diffs ∧ RootFault cfg rank b d f := by
  rw [advance] at h
  split at h
  · cases h
  · split at h
    · have h' : handleReduce cfg rank { b with diffs := b.diffs.clear } b.diffs true = .error f := h
      exact ⟨_, refreshes_clear b.diffs, (handleReduce_error h').of_diffs⟩
    · cases h

theorem pushEvent_error {rank : Nat} {b : EventDrivenBalancer} {event : Event} {ready : Bool} {f : Fault}
    (h : pushEvent cfg rank b event ready = .error f) :
    ∃ d, Refreshes d (b.diffs.insertIfNovel event).1 ∧ RootFault cfg rank b d f := by
  simp only [pushEvent] at h
  split at h
  · obtain ⟨d, hd, hf⟩ := advance_error h
    exact ⟨d, hd, hf.of_diffs⟩
  · cases h

inductive FaultCase (cfg : BalancerConfig) (s : BalancerSystem) (f : Fault) : BalancerAction → Prop
  | pushed (rank : Nat) (event : Event) (ready : Bool) (hr : rank < cfg.size) (d : EventMap)
      (hd : Refreshes d ((s.ranks rank).diffs.insertIfNovel event).1) (hf : RootFault cfg rank (s.ranks rank) d f) :
      FaultCase cfg s f (.pushEvent rank event ready)
  | advanced (rank : Nat) (ready : Bool) (hr : rank < cfg.size) (d : EventMap)
      (hd : Refreshes d (s.ranks rank).diffs) (hf : RootFault cfg rank (s.ranks rank) d f) :
      FaultCase cfg s f (.advance rank ready)
  | reduced (source rank : Nat) (ready : Bool) (hr : rank < cfg.size) (data : EventMap)
      (net : Network.Net BalancerTag EventMap) (ht : Network.take s.net .reduceData source rank = some (data, net))
      (hf : RootFault cfg rank (s.ranks rank) ((s.ranks rank).diffs.updateBy data).1 f) :
      FaultCase cfg s f (.deliver .reduceData source rank ready)
  | broadcast (source rank : Nat) (ready : Bool) (hr : rank < cfg.size) (data : EventMap)
      (net : Network.Net BalancerTag EventMap) (ht : Network.take s.net .broadcastData source rank = some (data, net))
      (hf : digest cfg (s.ranks rank) data = .error f) :
      FaultCase cfg s f (.deliver .broadcastData source rank ready)

theorem fault_cases {s : BalancerSystem} {a : BalancerAction} {f : Fault} (h : step cfg s a = .error f) :
    FaultCase cfg s f a := by
  cases a with
  | pushEvent rank event ready =>
      rw [step] at h
      split at h
      · next hr =>
          obtain ⟨d, hd, hf⟩ := pushEvent_error (map_error h)
          exact .pushed rank event ready hr d hd hf
      · cases h
  | advance rank ready =>
      rw [step] at h
      split at h
      · next hr =>
          obtain ⟨d, hd, hf⟩ := advance_error (map_error h)
          exact .advanced rank ready hr d hd hf
      · cases h
  | deliver tag source rank ready =>
      rw [step] at h
      split at h
      · next hr =>
          split at h
          · cases h
          · next data net ht =>
              have h := map_error h
              cases tag with
              | reduceData => exact .reduced source rank ready hr data net ht (handleReduce_error h)
              | broadcastData => exact .broadcast source rank ready hr data net ht (map_error h)
      · cases h

end Mallob.BalancerSteps
