import Mallob.BalancerSteps

namespace Mallob.ReplicaAgreement

open EventDrivenBalancer BalancerTree BalancerSystem BalancerSteps

structure View where
  states : EventMap
  balancingEpoch : Nat
  jobVolumes : List (Int × Int)

def viewOf (b : EventDrivenBalancer) : View := ⟨b.states, b.balancingEpoch, b.jobVolumes⟩

def View.digest (cfg : BalancerConfig) (v : View) (data : EventMap) : View where
  states := (v.states.updateBy data).1.removeOldZeros.1
  balancingEpoch := data.globalEpoch
  jobVolumes := (computeBalancingResult cfg (v.states.updateBy data).1).getD []

def replay (cfg : BalancerConfig) (maps : List EventMap) : View := maps.foldl (View.digest cfg) ⟨.empty, 0, []⟩

theorem replay_concat (cfg : BalancerConfig) (maps : List EventMap) (m : EventMap) :
    replay cfg (maps ++ [m]) = (replay cfg maps).digest cfg m := by
  rw [replay, List.foldl_append]
  rfl

def Numbered (maps : List EventMap) : Prop := maps.map (·.globalEpoch) = List.range' 1 maps.length

theorem Numbered.concat {maps : List EventMap} (h : Numbered maps) {m : EventMap}
    (hm : m.globalEpoch = maps.length + 1) : Numbered (maps ++ [m]) := by
  rw [Numbered] at *
  rw [List.map_append, h, List.length_append, List.length_singleton, List.range'_1_concat, List.map_singleton, hm,
    Nat.add_comm]

theorem Numbered.of_prefix {maps more : List EventMap} (h : Numbered more) (hp : maps <+: more) : Numbered maps := by
  obtain ⟨rest, rfl⟩ := hp
  rw [Numbered] at *
  rw [List.map_append, List.length_append, ← List.range'_append_1] at h
  exact (List.append_inj h (by simp)).1

theorem replay_epochs (cfg : BalancerConfig) {maps : List EventMap} (h : Numbered maps) :
    (replay cfg maps).balancingEpoch = maps.length ∧ (replay cfg maps).states.globalEpoch = maps.length := by
  induction maps using List.reverseRecOn with
  | nil => exact ⟨rfl, rfl⟩
  | append_singleton maps m ih =>
      obtain ⟨_, hstates⟩ := ih (h.of_prefix (List.prefix_append _ _))
      have hm : m.globalEpoch = maps.length + 1 := by
        rw [Numbered, List.map_append, List.length_append, List.length_singleton, List.range'_1_concat] at h
        have := (List.append_inj' h rfl).2
        simp only [List.map_singleton, List.cons.injEq, and_true] at this
        omega
      rw [replay_concat, List.length_append, List.length_singleton]
      refine ⟨hm, ?_⟩
      simp only [View.digest, EventMap.globalEpoch_removeOldZeros, EventMap.globalEpoch_updateBy, hstates, hm]
      omega

theorem digest_ok {cfg : BalancerConfig} {b b' : EventDrivenBalancer} {data : EventMap}
    (h : EventDrivenBalancer.digest cfg b data = .ok b') :
    viewOf b' = (viewOf b).digest cfg data ∧ b'.digested = b.digested ++ [data] ∧
      b.diffs.filterBy (b.states.updateBy data).1 = some b'.diffs := by
  simp only [EventDrivenBalancer.digest] at h
  split at h
  · cases h
  · next volumes hv =>
      split at h
      · cases h
      · next diffs hd =>
          obtain rfl := Except.ok.inj h
          refine ⟨?_, rfl, hd⟩
          simp [viewOf, View.digest, hv]

/-- Every rank has digested what its parent has digested but for the maps on
their way to it, and knows what follows from these maps. -/
structure Agreement (cfg : BalancerConfig) (s : BalancerSystem) : Prop where
  view : ∀ r, r < cfg.size → viewOf (s.ranks r) = replay cfg (s.ranks r).digested
  link : ∀ p c, c ∈ childRanks cfg.size p →
    (s.ranks p).digested = (s.ranks c).digested ++ s.net .broadcastData p c
  off : ∀ p c, c ∉ childRanks cfg.size p → s.net .broadcastData p c = []
  numbered : Numbered (s.ranks 0).digested

variable {cfg : BalancerConfig} {s s' : BalancerSystem}

theorem agreement_start : Agreement cfg BalancerSystem.start :=
  ⟨fun _ _ => rfl, fun _ _ _ => rfl, fun _ _ _ => rfl, rfl⟩

theorem received_broadcasts (rank : Nat) (data : EventMap) (tag : BalancerTag) (dst : Nat) :
    Network.received tag dst (broadcasts cfg rank data) =
      if tag = .broadcastData ∧ dst ∈ childRanks cfg.size rank then [data] else [] := by
  rw [broadcasts, Network.received_map _ _ _ (nodup_childRanks cfg.size rank)]
  simp only [eq_comm]

theorem broadcast_net (rank : Nat) (net : Network.Net BalancerTag EventMap) (b : EventDrivenBalancer) (data : EventMap)
    (p c : Nat) :
    (afterwards s rank net (b, broadcasts cfg rank data)).net .broadcastData p c =
      net .broadcastData p c ++ if p = rank ∧ c ∈ childRanks cfg.size rank then [data] else [] := by
  simp only [afterwards, Network.postAll_apply, received_broadcasts, true_and]
  by_cases hp : p = rank
  · simp [hp]
  · simp [hp]

/-- A step that changes nothing but the diffs of a rank and the reductions. -/
theorem Agreement.of_diffs (h : Agreement cfg s) {rank : Nat} {d : EventMap}
    {net : Network.Net BalancerTag EventMap} {out : List (Network.Envelope BalancerTag EventMap)}
    (hnet : ∀ p c, Network.postAll net rank out .broadcastData p c = s.net .broadcastData p c) :
    Agreement cfg (afterwards s rank net ({ s.ranks rank with diffs := d }, out)) := by
  have hview : ∀ r, viewOf ((afterwards s rank net ({ s.ranks rank with diffs := d }, out)).ranks r) =
      viewOf (s.ranks r) := by
    intro r
    by_cases hr : r = rank
    · subst hr; simp [afterwards, viewOf]
    · simp [afterwards, hr]
  have hdig : ∀ r, ((afterwards s rank net ({ s.ranks rank with diffs := d }, out)).ranks r).digested =
      (s.ranks r).digested := by
    intro r
    by_cases hr : r = rank
    · subst hr; simp [afterwards]
    · simp [afterwards, hr]
  refine ⟨?_, ?_, ?_, ?_⟩
  · intro r hr; rw [hview, hdig]; exact h.view r hr
  · intro p c hc; rw [hdig, hdig]; exact (h.link p c hc).trans (congrArg _ (hnet p c).symm)
  · intro p c hc; exact (hnet p c).trans (h.off p c hc)
  · rw [hdig]; exact h.numbered

/-- A rank digests a map and passes it on, in line with its parent if it has one. -/
theorem Agreement.of_digest (h : Agreement cfg s) {rank : Nat} {data d : EventMap} {b : EventDrivenBalancer}
    {net : Network.Net BalancerTag EventMap}
    (hd : EventDrivenBalancer.digest cfg { s.ranks rank with diffs := d } data = .ok b) (hr : rank < cfg.size)
    (hparent : ∀ p, rank ∈ childRanks cfg.size p → s.net .broadcastData p rank = data :: net .broadcastData p rank)
    (hnet : ∀ p c, (rank ∈ childRanks cfg.size p → c ≠ rank) → net .broadcastData p c = s.net .broadcastData p c)
    (hepoch : rank = 0 → data.globalEpoch = (s.ranks 0).digested.length + 1) :
    Agreement cfg (afterwards s rank net (b, broadcasts cfg rank data)) := by
  obtain ⟨hview, hdig, _⟩ := digest_ok hd
  have hself : ((afterwards s rank net (b, broadcasts cfg rank data)).ranks rank) = b := by simp [afterwards]
  have hother : ∀ r, r ≠ rank → ((afterwards s rank net (b, broadcasts cfg rank data)).ranks r) = s.ranks r := by
    intro r hr; simp [afterwards, hr]
  refine ⟨?_, ?_, ?_, ?_⟩
  · intro r hrs
    by_cases hrr : r = rank
    · subst hrr
      rw [hself, hview, hdig, replay_concat]
      exact congrArg (View.digest cfg · data) (h.view r hrs)
    · rw [hother r hrr]; exact h.view r hrs
  · intro p c hc
    have hpc : p < c := by
      obtain ⟨hne, _, rfl⟩ := mem_childRanks.mp hc
      exact parentRank_lt hne
    have hlink := h.link p c hc
    rw [broadcast_net]
    by_cases hp : p = rank
    · subst hp
      have hne : c ≠ p := by omega
      rw [hself, hother c hne, hdig, if_pos ⟨rfl, hc⟩, hnet p c (fun _ => hne), ← List.append_assoc, ← hlink]
    · rw [hother p hp, if_neg (fun hh => hp hh.1), List.append_nil]
      by_cases hcr : c = rank
      · subst hcr
        rw [hself, hdig, hlink, hparent p hc, List.append_assoc, List.singleton_append]
      · rw [hother c hcr, hnet p c (fun _ => hcr)]
        exact hlink
  · intro p c hc
    rw [broadcast_net]
    have hnone : ¬ (p = rank ∧ c ∈ childRanks cfg.size rank) := by rintro ⟨rfl, hm⟩; exact hc hm
    rw [if_neg hnone, List.append_nil, hnet p c (by rintro hm rfl; exact hc hm)]
    exact h.off p c hc
  · by_cases h0 : rank = 0
    · subst h0
      rw [hself, hdig]
      exact h.numbered.concat (hepoch rfl)
    · rw [hother 0 (Ne.symm h0)]; exact h.numbered

theorem Agreement.epoch_eq (h : Agreement cfg s) {r : Nat} (hr : r < cfg.size)
    (hn : Numbered (s.ranks r).digested) :
    (s.ranks r).balancingEpoch = (s.ranks r).digested.length ∧
      (s.ranks r).states.globalEpoch = (s.ranks r).digested.length := by
  have hv := h.view r hr
  obtain ⟨h1, h2⟩ := replay_epochs cfg hn
  rw [← hv] at h1 h2
  exact ⟨h1, h2⟩

theorem Agreement.of_outcome (h : Agreement cfg s) {rank : Nat} (hr : rank < cfg.size) {d : EventMap}
    {net : Network.Net BalancerTag EventMap} {r : EventDrivenBalancer × List (Network.Envelope BalancerTag EventMap)}
    (hnet : ∀ p c, net .broadcastData p c = s.net .broadcastData p c) (ho : Outcome cfg rank (s.ranks rank) d r) :
    Agreement cfg (afterwards s rank net r) := by
  cases ho with
  | kept => exact h.of_diffs hnet
  | sent _ =>
      apply h.of_diffs
      intro p c
      rw [Network.postAll_apply, hnet, Network.received_cons]
      simp
  | digested h0 b hd =>
      subst h0
      refine h.of_digest hd hr ?_ (fun p c _ => hnet p c) ?_
      · intro p hp
        exact absurd rfl (mem_childRanks.mp hp).1
      · intro _
        rw [← (h.epoch_eq hr h.numbered).1]
        rfl

theorem Agreement.child_of_take (h : Agreement cfg s) {source rank : Nat} {data : EventMap}
    {net : Network.Net BalancerTag EventMap} (ht : Network.take s.net .broadcastData source rank = some (data, net)) :
    rank ∈ childRanks cfg.size source := by
  by_contra hne
  have hhead := (Network.take_eq_some ht).1
  rw [h.off source rank hne] at hhead
  cases hhead

theorem agreement_step {a : BalancerAction} (h : Agreement cfg s) (hs : step cfg s a = .ok s') : Agreement cfg s' := by
  cases step_cases hs with
  | idle _ _ => exact h
  | pushed rank event ready hr d r hd ho => exact h.of_outcome hr (fun _ _ => rfl) ho
  | advanced rank ready hr d r hd ho => exact h.of_outcome hr (fun _ _ => rfl) ho
  | reduced source rank ready hr data net ht r ho =>
      refine h.of_outcome hr (fun p c => ?_) ho
      exact (Network.take_eq_some ht).2 _ _ _ (by simp)
  | broadcast source rank ready hr data net ht b hd =>
      obtain ⟨hhead, hrest⟩ := Network.take_eq_some ht
      have hchild := h.child_of_take ht
      obtain ⟨hne, _, rfl⟩ := mem_childRanks.mp hchild
      refine h.of_digest (d := (s.ranks rank).diffs) hd hr ?_ ?_ (fun h0 => absurd h0 hne)
      · intro p hp
        obtain ⟨_, _, rfl⟩ := mem_childRanks.mp hp
        exact hhead
      · intro p c hpc
        apply hrest
        rintro ⟨_, rfl, rfl⟩
        exact hpc hchild rfl

theorem agreement_run {as : List BalancerAction} (h : run cfg BalancerSystem.start as = .ok s) : Agreement cfg s :=
  Runs.run_invariant agreement_start (fun _ _ _ hi hs => agreement_step hi hs) h

theorem Agreement.digested_prefix (h : Agreement cfg s) {r : Nat} (hr : r < cfg.size) :
    (s.ranks r).digested <+: (s.ranks 0).digested := by
  induction r using Nat.strong_induction_on with
  | _ r ih =>
      by_cases h0 : r = 0
      · rw [h0]
      · have hlt := parentRank_lt h0
        have hlink := h.link (parentRank r) r (mem_childRanks.mpr ⟨h0, hr, rfl⟩)
        refine List.IsPrefix.trans ?_ (ih _ hlt (hlt.trans hr))
        exact ⟨_, hlink.symm⟩

theorem Outcome.digested_eq {rank : Nat} {b : EventDrivenBalancer} {d : EventMap}
    {r : EventDrivenBalancer × List (Network.Envelope BalancerTag EventMap)} (h : Outcome cfg rank b d r) :
    ∃ more, more.length ≤ 1 ∧ r.1.digested = b.digested ++ more := by
  cases h with
  | kept => exact ⟨[], by simp, by simp⟩
  | sent _ => exact ⟨[], by simp, by simp⟩
  | digested _ b' hd => exact ⟨_, by simp, (digest_ok hd).2.1⟩

theorem step_digested {a : BalancerAction} (h : step cfg s a = .ok s') (r : Nat) :
    ∃ more, more.length ≤ 1 ∧ (s'.ranks r).digested = (s.ranks r).digested ++ more := by
  have hat (rank : Nat) (net : Network.Net BalancerTag EventMap)
      (q : EventDrivenBalancer × List (Network.Envelope BalancerTag EventMap))
      (hq : ∃ more, more.length ≤ 1 ∧ q.1.digested = (s.ranks rank).digested ++ more) :
      ∃ more, more.length ≤ 1 ∧ ((afterwards s rank net q).ranks r).digested = (s.ranks r).digested ++ more := by
    by_cases hr : r = rank
    · subst hr; simpa [afterwards] using hq
    · exact ⟨[], by simp, by simp [afterwards, hr]⟩
  cases step_cases h with
  | idle _ _ => exact ⟨[], by simp, by simp⟩
  | pushed rank event ready hr d q hd ho => exact hat rank _ q (Outcome.digested_eq ho)
  | advanced rank ready hr d q hd ho => exact hat rank _ q (Outcome.digested_eq ho)
  | reduced source rank ready hr data net ht q ho => exact hat rank net q (Outcome.digested_eq ho)
  | broadcast source rank ready hr data net ht b hd =>
      exact hat rank net _ ⟨[data], by simp, (digest_ok hd).2.1⟩

theorem run_digested {as : List BalancerAction} (h : run cfg s as = .ok s') (r : Nat) :
    (s.ranks r).digested <+: (s'.ranks r).digested := by
  refine Runs.run_invariant (P := fun s' => (s.ranks r).digested <+: (s'.ranks r).digested) List.prefix_rfl ?_ h
  intro s₁ a s₂ hp hs
  obtain ⟨more, _, he⟩ := step_digested hs r
  rw [he]
  exact hp.trans (List.prefix_append _ _)

/-- Every beginning of what the root has digested is all that it had digested
at some earlier moment. -/
theorem earlier_root {as : List BalancerAction} (h : run cfg BalancerSystem.start as = .ok s) {maps : List EventMap}
    (hp : maps <+: (s.ranks 0).digested) :
    ∃ k, k ≤ as.length ∧ ∃ s₀, run cfg BalancerSystem.start (as.take k) = .ok s₀ ∧ (s₀.ranks 0).digested = maps := by
  induction as using List.reverseRecOn generalizing s with
  | nil =>
      obtain rfl := Except.ok.inj h
      exact ⟨0, le_rfl, _, rfl, (List.prefix_nil.mp hp).symm⟩
  | append_singleton as a ih =>
      obtain ⟨s₁, hr, hs⟩ := Runs.run_concat h
      obtain ⟨more, hlen, he⟩ := step_digested hs 0
      by_cases hall : maps = (s.ranks 0).digested
      · exact ⟨(as ++ [a]).length, le_rfl, s, by rw [List.take_length]; exact h, hall.symm⟩
      · have hshort : maps <+: (s₁.ranks 0).digested := by
          have hlt : maps.length < (s.ranks 0).digested.length :=
            lt_of_le_of_ne hp.length_le fun hl => hall (hp.eq_of_length hl)
          rw [he, List.length_append] at hlt
          rw [he] at hp
          exact List.prefix_of_prefix_length_le hp (List.prefix_append _ _) (by omega)
        obtain ⟨k, hk, s₀, hrun, hdig⟩ := ih hr hshort
        refine ⟨k, by rw [List.length_append]; omega, s₀, ?_, hdig⟩
        rw [List.take_append_of_le_length hk]
        exact hrun

theorem view_eq_of_digested {s₀ : BalancerSystem} (h : Agreement cfg s) (h₀ : Agreement cfg s₀) {r r₀ : Nat}
    (hr : r < cfg.size) (hr₀ : r₀ < cfg.size) (hd : (s.ranks r).digested = (s₀.ranks r₀).digested) :
    (s.ranks r).states = (s₀.ranks r₀).states ∧ (s.ranks r).balancingEpoch = (s₀.ranks r₀).balancingEpoch ∧
      (s.ranks r).jobVolumes = (s₀.ranks r₀).jobVolumes := by
  have hv : viewOf (s.ranks r) = viewOf (s₀.ranks r₀) := by rw [h.view r hr, h₀.view r₀ hr₀, hd]
  exact ⟨congrArg View.states hv, congrArg View.balancingEpoch hv, congrArg View.jobVolumes hv⟩

/-- At any moment of any run, every rank is where the root was after some
of its digests; ranks with the same epoch have the same states and volumes;
and the epoch of a rank only grows. -/
theorem ranks_follow_root {as : List BalancerAction} (h : run cfg BalancerSystem.start as = .ok s) :
    (∀ r, r < cfg.size → ∃ k, k ≤ as.length ∧ ∃ s₀, run cfg BalancerSystem.start (as.take k) = .ok s₀ ∧
      (s₀.ranks 0).digested <+: (s.ranks 0).digested ∧ (s₀.ranks 0).digested = (s.ranks r).digested ∧
      (s.ranks r).states = (s₀.ranks 0).states ∧ (s.ranks r).balancingEpoch = (s₀.ranks 0).balancingEpoch) ∧
    (∀ r r', r < cfg.size → r' < cfg.size → getGlobalEpoch (s.ranks r) = getGlobalEpoch (s.ranks r') →
      (s.ranks r).states = (s.ranks r').states ∧ (s.ranks r).jobVolumes = (s.ranks r').jobVolumes) ∧
    (∀ k s₀, run cfg BalancerSystem.start (as.take k) = .ok s₀ → ∀ r, r < cfg.size →
      (s₀.ranks r).balancingEpoch ≤ (s.ranks r).balancingEpoch ∧
      getGlobalEpoch (s₀.ranks r) ≤ getGlobalEpoch (s.ranks r)) := by
  have ha := agreement_run h
  have hnum {s₀ : BalancerSystem} (ha : Agreement cfg s₀) {r : Nat} (hr : r < cfg.size) :
      Numbered (s₀.ranks r).digested := ha.numbered.of_prefix (ha.digested_prefix hr)
  refine ⟨?_, ?_, ?_⟩
  · intro r hr
    obtain ⟨k, hk, s₀, hrun, hd⟩ := earlier_root h (ha.digested_prefix hr)
    obtain ⟨hst, hep, _⟩ := view_eq_of_digested ha (agreement_run hrun) hr (by omega) hd.symm
    exact ⟨k, hk, s₀, hrun, by rw [hd]; exact ha.digested_prefix hr, hd, hst, hep⟩
  · intro r r' hr hr' he
    have hlen : (s.ranks r).digested.length = (s.ranks r').digested.length := by
      rw [← (ha.epoch_eq hr (hnum ha hr)).2, ← (ha.epoch_eq hr' (hnum ha hr')).2]
      exact he
    have hd : (s.ranks r).digested = (s.ranks r').digested :=
      (List.prefix_of_prefix_length_le (ha.digested_prefix hr) (ha.digested_prefix hr') hlen.le).eq_of_length hlen
    obtain ⟨hst, _, hvol⟩ := view_eq_of_digested ha ha hr hr' hd
    exact ⟨hst, hvol⟩
  · intro k s₀ hrun r hr
    have ha₀ := agreement_run hrun
    have hle := (run_digested (Runs.run_take h hrun) r).length_le
    obtain ⟨h1, h2⟩ := ha.epoch_eq hr (hnum ha hr)
    obtain ⟨h3, h4⟩ := ha₀.epoch_eq hr (hnum ha₀ hr)
    rw [getGlobalEpoch, getGlobalEpoch]
    omega

theorem ranks_follow_root_three_ranks :
    ∃ s, run ⟨3, 1, VolumeCalculator.hashInt, 20⟩ BalancerSystem.start
        [.pushEvent 2 ⟨7, 1, 2, 1⟩ true, .deliver .reduceData 2 0 true, .deliver .broadcastData 0 1 false] = .ok s ∧
      getGlobalEpoch (s.ranks 1) = 1 ∧ (s.ranks 1).jobVolumes = [(7, 2)] ∧
      (s.ranks 1).states = (s.ranks 0).states ∧ (s.ranks 1).jobVolumes = (s.ranks 0).jobVolumes := by
  have hrun : ((run ⟨3, 1, VolumeCalculator.hashInt, 20⟩ BalancerSystem.start
      [.pushEvent 2 ⟨7, 1, 2, 1⟩ true, .deliver .reduceData 2 0 true, .deliver .broadcastData 0 1 false]).map
      fun s => (getGlobalEpoch (s.ranks 1), getGlobalEpoch (s.ranks 0), (s.ranks 1).jobVolumes)) =
      .ok (1, 1, [(7, 2)]) := by decide +kernel
  obtain ⟨s, hs, heq⟩ := Runs.exists_of_map_eq_ok hrun
  obtain ⟨h1, h0, hv⟩ : getGlobalEpoch (s.ranks 1) = 1 ∧ getGlobalEpoch (s.ranks 0) = 1 ∧
      (s.ranks 1).jobVolumes = [(7, 2)] := by simpa using heq
  refine ⟨s, hs, h1, hv, (ranks_follow_root hs).2.1 1 0 (by decide) (by decide) (h1.trans h0.symm)⟩

end Mallob.ReplicaAgreement
