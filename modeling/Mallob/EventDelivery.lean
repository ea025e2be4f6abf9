import Mallob.EventLine

namespace Mallob.EventDelivery

open EventDrivenBalancer BalancerTree BalancerSystem BalancerSteps ReplicaAgreement EventLine

def intMax : Int := 2147483647

def tombstone (jobId : Int) : Event := ⟨jobId, intMax, 0, 0⟩

def pushedOf (j : Int) (actions : List BalancerAction) : List Event :=
  actions.filterMap fun
    | .pushEvent _ event _ => if event.jobId = j then some event else none
    | _ => none

/-- The events of each job are pushed at one rank, with epochs that increase
up to that of the tombstone. -/
structure SingleSource (cfg : BalancerConfig) (origin : Int → Nat) (actions : List BalancerAction) : Prop where
  origin_lt : ∀ j, origin j < cfg.size
  at_origin : ∀ rank event ready, .pushEvent rank event ready ∈ actions → rank = origin event.jobId
  epochs : ∀ rank event ready, .pushEvent rank event ready ∈ actions → 0 ≤ event.epoch ∧ event.epoch ≤ intMax
  increasing : ∀ j, (pushedOf j actions).Pairwise fun a b => a.epoch < b.epoch

def Applied (cfg : BalancerConfig) (root : EventDrivenBalancer) (ev : Event) : Prop :=
  ∃ maps m, maps ++ [m] <+: root.digested ∧
    ((replay cfg maps).states.updateBy m).1.map[ev.jobId]? = some ev

section conflict

variable {cfg : BalancerConfig} {s : BalancerSystem}

theorem digest_conflict {b : EventDrivenBalancer} {data : EventMap}
    (h : EventDrivenBalancer.digest cfg b data = .error .conflict) :
    ∃ (k : Int) (ev o : Event), b.diffs.map[k]? = some ev ∧ (b.states.updateBy data).1.map[k]? = some o ∧
      EventMap.conflicts ev o = true := by
  have hnone : b.diffs.filterBy (b.states.updateBy data).1 = none := by
    simp only [EventDrivenBalancer.digest] at h
    split at h
    · cases h
    · split at h
      · next hd => exact hd
      · cases h
  by_contra hne
  have hsome := (EventMap.filterBy_isSome_iff b.diffs (b.states.updateBy data).1).mpr fun k ev o hev ho => by
    rw [← Bool.not_eq_true]
    exact fun hc => hne ⟨k, ev, o, hev, ho, hc⟩
  rw [hnone] at hsome
  cases hsome

/-- The abort() is out of reach of a root whose jobs all stand in line. -/
theorem root_no_conflict {rank : Nat} {net : Network.Net BalancerTag EventMap} {d : EventMap}
    (ha : Agreement cfg (merged s rank net d))
    (hl : ∀ j, ∃ o mark newest, JobLine cfg (merged s rank net d) j o mark newest) :
    ¬ RootFault cfg rank (s.ranks rank) d .conflict := by
  rintro ⟨rfl, h⟩
  obtain ⟨k, ev, e, hev, he, hc⟩ := digest_conflict h
  obtain ⟨o, mark, newest, hline⟩ := hl k
  have hself : (merged s 0 net d).ranks 0 = { s.ranks 0 with diffs := d } := by simp [merged, afterwards]
  have happ := hline.root_applies ha (by rw [hself]; exact hev) hev
  rw [hself] at happ
  obtain rfl := Option.some.inj (happ.symm.trans he)
  simp [EventMap.conflicts] at hc

theorem step_no_conflict {a : BalancerAction} (ha : Agreement cfg s) (hup : Upward s)
    (hl : ∀ j, ∃ o mark newest, JobLine cfg s j o mark newest)
    (hpush : ∀ rank event ready, a = .pushEvent rank event ready → ∀ d,
      Refreshes d ((s.ranks rank).diffs.insertIfNovel event).1 →
      ∀ j, ∃ o mark newest, JobLine cfg (merged s rank s.net d) j o mark newest) :
    step cfg s a ≠ .error .conflict := by
  intro h
  cases fault_cases h with
  | pushed rank event ready hr d hd hf =>
      exact root_no_conflict (Agreement.merged ha hr d fun _ _ => rfl) (hpush rank event ready rfl d hd) hf
  | advanced rank ready hr d hd hf =>
      refine root_no_conflict (Agreement.merged ha hr d fun _ _ => rfl) (fun j => ?_) hf
      obtain ⟨o, mark, newest, hline⟩ := hl j
      exact ⟨o, mark, newest, hline.refreshed hd⟩
  | reduced source rank ready hr data net ht hf =>
      have hnet : ∀ p c, net .broadcastData p c = s.net .broadcastData p c := fun p c =>
        (Network.take_eq_some ht).2 _ _ _ (by simp)
      refine root_no_conflict (Agreement.merged ha hr _ hnet) (fun j => ?_) hf
      · obtain ⟨o, mark, newest, hline⟩ := hl j
        exact ⟨o, mark, newest, hline.reduced hup ht⟩
  | broadcast source rank ready hr data net ht hf =>
      obtain ⟨k, ev, e, hev, he, hc⟩ := digest_conflict hf
      obtain ⟨o, mark, newest, hline⟩ := hl k
      obtain ⟨_, hp⟩ := Agreement.next ha hr ht
      rw [(hline.follows_known ha hp hev he).no_conflict] at hc
      cases hc

end conflict

section run

variable {cfg : BalancerConfig} {origin : Int → Nat} {s : BalancerSystem}

theorem pushedOf_append (j : Int) (as bs : List BalancerAction) :
    pushedOf j (as ++ bs) = pushedOf j as ++ pushedOf j bs := List.filterMap_append

theorem SingleSource.init {as bs : List BalancerAction} (h : SingleSource cfg origin (as ++ bs)) :
    SingleSource cfg origin as where
  origin_lt := h.origin_lt
  at_origin := fun rank event ready hm => h.at_origin rank event ready (List.mem_append_left _ hm)
  epochs := fun rank event ready hm => h.epochs rank event ready (List.mem_append_left _ hm)
  increasing := fun j => by
    have := h.increasing j
    rw [pushedOf_append, List.pairwise_append] at this
    exact this.1

theorem SingleSource.follows {as : List BalancerAction} {rank : Nat} {event : Event} {ready : Bool}
    (h : SingleSource cfg origin (as ++ [.pushEvent rank event ready])) {n : Event}
    (hn : (pushedOf event.jobId as).getLast? = some n) : Follows n event := by
  have hinc := h.increasing event.jobId
  rw [pushedOf_append, List.pairwise_append] at hinc
  exact Or.inl (hinc.2.2 n (List.mem_of_getLast? hn) event (by simp [pushedOf]))

structure Orderly (cfg : BalancerConfig) (origin : Int → Nat) (actions : List BalancerAction) (s : BalancerSystem) :
    Prop where
  agreement : Agreement cfg s
  upward : Upward s
  lines : ∀ j, JobLine cfg s j (origin j) 0 (pushedOf j actions).getLast?

theorem orderly_start (h : SingleSource cfg origin []) : Orderly cfg origin [] BalancerSystem.start where
  agreement := agreement_start
  upward := upward_start
  lines := fun j => by
    have hblock : ∀ r, block BalancerSystem.start j r = [] := fun r => by
      simp [block, BalancerSystem.start, Network.empty, EventDrivenBalancer.start]
    have hline : line BalancerSystem.start j (origin j) 0 = [] := by
      rw [line, funext hblock]
      simp [BalancerSystem.start, EventDrivenBalancer.start]
    refine ⟨h.origin_lt j, fun _ _ => Nat.zero_le _, ?_, ?_, ?_, ?_, fun r _ => hblock r⟩
    · simp [replay]
    · rw [hline]; exact List.Pairwise.nil
    · rw [hline]; simp
    · rw [hline]; rfl

theorem orderly_push {as : List BalancerAction} (h : Orderly cfg origin as s) {rank : Nat} {event : Event}
    {ready : Bool} (hsrc : SingleSource cfg origin (as ++ [.pushEvent rank event ready])) {d : EventMap}
    (hd : Refreshes d ((s.ranks rank).diffs.insertIfNovel event).1) (j : Int) :
    ∃ o mark newest, JobLine cfg (merged s rank s.net d) j o mark newest := by
  have hline := h.lines j
  by_cases hj : event.jobId = j
  · subst hj
    obtain rfl := hsrc.at_origin rank event ready (by simp)
    exact ⟨_, _, _, hline.pushed rfl (hsrc.epochs (origin event.jobId) event ready (by simp)).1 (fun n hn => hsrc.follows hn) hd⟩
  · have hins : ((s.ranks rank).diffs.insertIfNovel event).1.map[j]? = (s.ranks rank).diffs.map[j]? := by
      rw [EventMap.lookup_insertIfNovel, if_neg hj]
    refine ⟨_, _, _, hline.merge_same rank ((hd j ?_).trans hins)⟩
    intro ev hev
    rw [hins] at hev
    exact (hline.nonneg_diffs hev).2.2

theorem orderly_step {as : List BalancerAction} {a : BalancerAction} {s' : BalancerSystem}
    (h : Orderly cfg origin as s) (hsrc : SingleSource cfg origin (as ++ [a])) (hs : step cfg s a = .ok s') :
    Orderly cfg origin (as ++ [a]) s' where
  agreement := agreement_step h.agreement hs
  upward := upward_step h.upward hs
  lines := fun j => by
    by_cases hpush : ∃ rank event ready, a = .pushEvent rank event ready ∧ event.jobId = j
    · obtain ⟨rank, event, ready, rfl, rfl⟩ := hpush
      obtain rfl := hsrc.at_origin rank event ready (by simp)
      rw [pushedOf_append, show pushedOf event.jobId [.pushEvent (origin event.jobId) event ready] = [event] by
        simp [pushedOf], List.getLast?_concat]
      exact jobLine_push (h.lines _) h.agreement h.upward rfl (hsrc.epochs (origin event.jobId) event ready (by simp)).1
        (fun n hn => hsrc.follows hn) hs
    · have hnone : pushedOf j [a] = [] := by
        cases a with
        | pushEvent rank event ready =>
            have hj : event.jobId ≠ j := fun hj => hpush ⟨rank, event, ready, rfl, hj⟩
            simp [pushedOf, hj]
        | advance rank ready => rfl
        | deliver tag source rank ready => rfl
      rw [pushedOf_append, hnone, List.append_nil]
      refine jobLine_step (h.lines j) h.agreement h.upward ?_ hs
      intro rank event ready ha hj
      exact hpush ⟨rank, event, ready, ha, hj⟩

theorem orderly_run {as : List BalancerAction} (hsrc : SingleSource cfg origin as)
    (h : run cfg BalancerSystem.start as = .ok s) : Orderly cfg origin as s := by
  induction as using List.reverseRecOn generalizing s with
  | nil => obtain rfl := Except.ok.inj h; exact orderly_start hsrc
  | append_singleton as a ih =>
      obtain ⟨s₁, hr, hs⟩ := Runs.run_concat h
      exact orderly_step (ih hsrc.init hr) hsrc hs

theorem run_no_conflict {as : List BalancerAction} (hsrc : SingleSource cfg origin as) :
    run cfg BalancerSystem.start as ≠ .error .conflict := by
  induction as using List.reverseRecOn with
  | nil => intro h; cases h
  | append_singleton as a ih =>
      intro h
      rcases Runs.run_concat_error h with hr | ⟨s, hr, hstep⟩
      · exact ih hsrc.init hr
      · have ho := orderly_run hsrc.init hr
        refine step_no_conflict ho.agreement ho.upward (fun j => ⟨_, _, _, ho.lines j⟩) ?_ hstep
        rintro rank event ready rfl d hd j
        exact orderly_push ho hsrc hd j

end run

section job

variable {cfg : BalancerConfig} {s : BalancerSystem} {j : Int} {o : Nat} {newest : Option Event}

/-- The states of a rank hold the last event of a job which it has digested. -/
theorem rank_knows (h : JobLine cfg s j o 0 newest) (ha : Agreement cfg s) {r : Nat} (hr : r < cfg.size) :
    (jobEvents j (s.ranks r).digested).Pairwise Follows ∧
    (∀ ev ∈ jobEvents j (s.ranks r).digested, ev ∈ line s j o 0) ∧
    (s.ranks r).states.map[j]? =
      (jobEvents j (s.ranks r).digested).getLast?.filter fun ev => !EventMap.isOldZero ev := by
  obtain ⟨rest, hrest⟩ := ha.digested_prefix hr
  have hline : line s j o 0 = jobEvents j (s.ranks r).digested ++
      (jobEvents j rest ++ (path o).flatMap (block s j)) := by
    rw [line, List.drop_zero, ← hrest, jobEvents_append, List.append_assoc]
  have ho := h.ordered
  rw [hline, List.pairwise_append] at ho
  have hmem : ∀ ev ∈ jobEvents j (s.ranks r).digested, ev ∈ line s j o 0 := fun ev hev => by
    rw [hline]; exact List.mem_append_left _ hev
  refine ⟨ho.1, hmem, ?_⟩
  have hview : (s.ranks r).states = (replay cfg ([] ++ (s.ranks r).digested)).states := by
    rw [List.nil_append, ← ha.view r hr]
    rfl
  rw [hview]
  refine lookup_replay ?_ ho.1 fun ev hev => h.nonneg ev (hmem ev hev)
  simp [replay]

theorem epoch_le_newest (h : JobLine cfg s j o 0 newest) {ev : Event} (hev : ev ∈ line s j o 0) :
    ∃ n, newest = some n ∧ ev.epoch ≤ n.epoch := by
  obtain ⟨n, hn⟩ : ∃ n, (line s j o 0).getLast? = some n :=
    Option.isSome_iff_exists.mp (by simpa using List.ne_nil_of_mem hev)
  exact ⟨n, h.newest_eq.symm.trans hn, (follows_last h.ordered hn hev).epoch_le⟩

theorem applied_of_digested {mark : Nat} (h : JobLine cfg s j o mark newest) {ev : Event} (hj : ev.jobId = j)
    (hev : ev ∈ jobEvents j ((s.ranks 0).digested.drop mark)) : Applied cfg (s.ranks 0) ev := by
  obtain ⟨m, hm, hmev⟩ := mem_jobEvents.mp hev
  obtain ⟨maps, rest, hsplit⟩ := List.append_of_mem hm
  have hall : (s.ranks 0).digested = (s.ranks 0).digested.take mark ++ maps ++ [m] ++ rest := by
    rw [List.append_assoc, List.append_assoc, List.singleton_append, ← hsplit, List.take_append_drop]
  refine ⟨(s.ranks 0).digested.take mark ++ maps, m, ⟨rest, hall.symm⟩, ?_⟩
  have hline : line s j o mark = jobEvents j maps ++ (ev :: (jobEvents j rest ++ (path o).flatMap (block s j))) := by
    rw [line, hsplit, jobEvents_append, jobEvents_cons, hmev]
    simp
  have ho := h.ordered
  rw [hline, List.pairwise_append] at ho
  have h0 : ∀ e ∈ jobEvents j maps, 0 ≤ e.epoch := fun e he => h.nonneg e (by rw [hline]; simp [he])
  rw [hj, EventMap.lookup_updateBy, hmev, Option.elim_some]
  refine newer_of_follows (h.nonneg ev (by rw [hline]; simp)) ?_
  intro e he
  rw [lookup_replay h.forgotten ho.1 h0] at he
  exact ho.2.2 e (List.mem_of_getLast? (Option.filter_eq_some_iff.mp he).1) ev (by simp)

/-- The event in question, where it stands: in the diffs of a rank on the path
to the root, in a reduction on that path, or in the states of the root. -/
theorem carried_or_applied {mark : Nat} (h : JobLine cfg s j o mark newest) {ev : Event} (hj : ev.jobId = j)
    (hev : newest = some ev) :
    (∃ r ∈ path o, (s.ranks r).diffs.map[j]? = some ev) ∨
    (∃ r ∈ path o, ∃ m ∈ s.net .reduceData r (parentRank r), m.map[j]? = some ev) ∨ Applied cfg (s.ranks 0) ev := by
  have hline : ev ∈ line s j o mark := List.mem_of_getLast? (h.newest_eq.trans hev)
  rw [line] at hline
  rcases List.mem_append.mp hline with hdig | hpath
  · exact Or.inr (Or.inr (applied_of_digested h hj hdig))
  · obtain ⟨r, hr, hblock⟩ := List.mem_flatMap.mp hpath
    rcases List.mem_append.mp hblock with hchan | hdiffs
    · obtain ⟨m, hm, hmev⟩ := mem_jobEvents.mp hchan
      exact Or.inr (Or.inl ⟨r, hr, m, hm, hmev⟩)
    · exact Or.inl ⟨r, hr, by simpa using hdiffs⟩

end job

theorem mem_pushedOf {j : Int} {as : List BalancerAction} {ev : Event} (h : ev ∈ pushedOf j as) :
    ev.jobId = j ∧ ∃ rank ready, .pushEvent rank ev ready ∈ as := by
  obtain ⟨a, ha, heq⟩ := List.mem_filterMap.mp h
  cases a with
  | pushEvent rank event ready =>
      simp only [Option.ite_none_right_eq_some, Option.some.injEq] at heq
      obtain ⟨hj, rfl⟩ := heq
      exact ⟨hj, rank, ready, ha⟩
  | advance rank ready => cases heq
  | deliver tag source rank ready => cases heq

/-- A rank which has digested a job's tombstone knows nothing about the job. -/
theorem forgotten_of_tombstone {cfg : BalancerConfig} {origin : Int → Nat} {as : List BalancerAction}
    {s : BalancerSystem} (hsrc : SingleSource cfg origin as) (ho : Orderly cfg origin as s) {j : Int} {r : Nat}
    (hr : r < cfg.size) (hd : ∃ m ∈ (s.ranks r).digested, m.map[j]? = some (tombstone j)) :
    (s.ranks r).states.map[j]? = none := by
  obtain ⟨hord, hmem, hknow⟩ := rank_knows (ho.lines j) ho.agreement hr
  have ht : tombstone j ∈ jobEvents j (s.ranks r).digested := mem_jobEvents.mpr hd
  obtain ⟨e, he⟩ : ∃ e, (jobEvents j (s.ranks r).digested).getLast? = some e :=
    Option.isSome_iff_exists.mp (by simpa using List.ne_nil_of_mem ht)
  have hmax : e.epoch ≤ intMax := by
    obtain ⟨n, hn, hle⟩ := epoch_le_newest (ho.lines j) (hmem e (List.mem_of_getLast? he))
    obtain ⟨_, rank, ready, hpush⟩ := mem_pushedOf (List.mem_of_getLast? hn)
    exact hle.trans (hsrc.epochs rank n ready hpush).2
  rw [hknow, he, ← (follows_last hord he ht).eq_of_ge hmax]
  simp [EventMap.isOldZero, tombstone]

/-- No event is lost and none comes back, in any run in which each job's events
come from one rank and in order. -/
theorem events_delivered {cfg : BalancerConfig} {origin : Int → Nat} {as : List BalancerAction}
    (hsrc : SingleSource cfg origin as) :
    run cfg BalancerSystem.start as ≠ .error .conflict ∧
    ∀ s, run cfg BalancerSystem.start as = .ok s →
      (∀ j ev, (pushedOf j as).getLast? = some ev →
        (∃ r ∈ path (origin j), (s.ranks r).diffs.map[j]? = some ev) ∨
        (∃ r ∈ path (origin j), ∃ m ∈ s.net .reduceData r (parentRank r), m.map[j]? = some ev) ∨
        Applied cfg (s.ranks 0) ev) ∧
      (∀ k s₀, run cfg BalancerSystem.start (as.take k) = .ok s₀ → ∀ r, r < cfg.size → ∀ (j : Int) (e e' : Event),
        (s₀.ranks r).states.map[j]? = some e → (s.ranks r).states.map[j]? = some e' → e.epoch ≤ e'.epoch) ∧
      (∀ k s₀, run cfg BalancerSystem.start (as.take k) = .ok s₀ → ∀ r, r < cfg.size → ∀ j : Int,
        (∃ m ∈ (s₀.ranks r).digested, m.map[j]? = some (tombstone j)) → (s.ranks r).states.map[j]? = none) := by
  refine ⟨run_no_conflict hsrc, ?_⟩
  intro s h
  have ho := orderly_run hsrc h
  refine ⟨?_, ?_, ?_⟩
  · intro j ev hev
    exact carried_or_applied (ho.lines j) (mem_pushedOf (List.mem_of_getLast? hev)).1 hev
  · intro k s₀ h₀ r hr j e e' he he'
    have hsrc₀ : SingleSource cfg origin (as.take k) := by
      rw [← List.take_append_drop k as] at hsrc
      exact hsrc.init
    have ho₀ := orderly_run hsrc₀ h₀
    obtain ⟨_, _, hknow₀⟩ := rank_knows (ho₀.lines j) ho₀.agreement hr
    obtain ⟨hord, _, hknow⟩ := rank_knows (ho.lines j) ho.agreement hr
    rw [hknow₀] at he
    rw [hknow] at he'
    have hmem : e ∈ jobEvents j (s.ranks r).digested := by
      obtain ⟨more, hmore⟩ := run_digested (Runs.run_take h h₀) r
      rw [← hmore, jobEvents_append]
      exact List.mem_append_left _ (List.mem_of_getLast? (Option.filter_eq_some_iff.mp he).1)
    exact (follows_last hord (Option.filter_eq_some_iff.mp he').1 hmem).epoch_le
  · rintro k s₀ h₀ r hr j ⟨m, hm, hmj⟩
    exact forgotten_of_tombstone hsrc ho hr ⟨m, (run_digested (Runs.run_take h h₀) r).subset hm, hmj⟩

theorem events_delivered_three_ranks :
    SingleSource ⟨3, 1, VolumeCalculator.hashInt, 20⟩ (fun _ => 2)
      [.pushEvent 2 ⟨7, 2, 2, 1⟩ true, .deliver .reduceData 2 0 true, .pushEvent 2 (tombstone 7) true] ∧
    ∃ s, run ⟨3, 1, VolumeCalculator.hashInt, 20⟩ BalancerSystem.start
      [.pushEvent 2 ⟨7, 2, 2, 1⟩ true, .deliver .reduceData 2 0 true, .pushEvent 2 (tombstone 7) true] = .ok s ∧
      ((∃ r ∈ path 2, (s.ranks r).diffs.map[(7 : Int)]? = some (tombstone 7)) ∨
        (∃ r ∈ path 2, ∃ m ∈ s.net .reduceData r (parentRank r), m.map[(7 : Int)]? = some (tombstone 7)) ∨
        Applied ⟨3, 1, VolumeCalculator.hashInt, 20⟩ (s.ranks 0) (tombstone 7)) := by
  have hsrc : SingleSource ⟨3, 1, VolumeCalculator.hashInt, 20⟩ (fun _ => 2)
      [.pushEvent 2 ⟨7, 2, 2, 1⟩ true, .deliver .reduceData 2 0 true, .pushEvent 2 (tombstone 7) true] := by
    refine ⟨fun _ => by decide, ?_, ?_, ?_⟩
    · intro rank event ready h
      simp only [List.mem_cons, BalancerAction.pushEvent.injEq, List.not_mem_nil] at h
      rcases h with h | h | h | h <;> simp_all
    · intro rank event ready h
      simp only [List.mem_cons, BalancerAction.pushEvent.injEq, List.not_mem_nil] at h
      rcases h with h | h | h | h <;> simp_all [tombstone, intMax]
    · intro j
      by_cases hj : (7 : Int) = j
      · simp [pushedOf, tombstone, intMax, hj]
      · simp [pushedOf, tombstone, hj]
  have hok : ((run ⟨3, 1, VolumeCalculator.hashInt, 20⟩ BalancerSystem.start
      [.pushEvent 2 ⟨7, 2, 2, 1⟩ true, .deliver .reduceData 2 0 true, .pushEvent 2 (tombstone 7) true]).map
      fun _ => true) = .ok true := by decide +kernel
  obtain ⟨s, hs, _⟩ := Runs.exists_of_map_eq_ok hok
  exact ⟨hsrc, s, hs, ((events_delivered hsrc).2 s hs).1 7 (tombstone 7) (by decide)⟩

end Mallob.EventDelivery
