import Mallob.BalancerCalls

namespace Mallob.Reregistration

open BalancerTree BalancerSystem BalancerSteps ReplicaAgreement EventLine EventDelivery

def jobIdOf : BalancerCall → Int
  | .onProbe jobId => jobId
  | .onActivate job _ => job.id
  | .onDemandChange job _ => job.id
  | .onSuspend job => job.id
  | .onTerminate job => job.id

def IsRootCall (j : Int) : BalancerCall → Prop
  | .onProbe _ => False
  | .onActivate job _ => job.id = j ∧ job.isRoot = true ∧ 0 < job.priority
  | .onDemandChange job _ => job.id = j ∧ job.isRoot = true ∧ 0 < job.priority
  | .onSuspend job => job.id = j ∧ job.isRoot = true ∧ 0 < job.priority
  | .onTerminate job => job.id = j ∧ job.isRoot = true ∧ 0 < job.priority

section registry

variable {j : Int} {c : BalancerCall} {reg reg' : JobRegistry} {event : Option Event}

inductive RootCall (j : Int) (reg reg' : JobRegistry) : BalancerCall → Option Event → Prop
  | quiet (c : BalancerCall) (hc : ∀ job, c = .onTerminate job → reg'.jobRootEpochs j = none)
      (h : reg'.jobRootEpochs j = reg.jobRootEpochs j ∨
        reg.jobRootEpochs j = none ∧ reg'.jobRootEpochs j = some 1) : RootCall j reg reg' c none
  | changed (c : BalancerCall) (hc : ∀ job, c ≠ .onTerminate job) (e demand : Int) (priority : ℚ)
      (he : reg.jobRootEpochs j = some e) (he' : reg'.jobRootEpochs j = some (e + 1)) (hpos : 0 < e)
      (hp : 0 < priority) : RootCall j reg reg' c (some ⟨j, e + 1, demand, priority⟩)
  | ended (job : BalancedJob) (e : Int) (he : reg.jobRootEpochs j = some e) (he' : reg'.jobRootEpochs j = none) :
      RootCall j reg reg' (.onTerminate job) (some (tombstone j))

theorem nextEpoch_ok {r : JobRegistry × Int} (h : reg.nextEpoch j = .ok r) :
    ∃ e, reg.jobRootEpochs j = some e ∧ 0 < e ∧ r.2 = e + 1 ∧
      r.1 = { reg with jobRootEpochs := Function.update reg.jobRootEpochs j (some (e + 1)) } := by
  rw [JobRegistry.nextEpoch] at h
  split at h
  · cases h
  · next e he =>
      split at h
      · next hpos =>
          obtain rfl := Except.ok.inj h
          exact ⟨e, he, hpos, rfl, rfl⟩
      · cases h

theorem onDemandChange_ok {job : BalancedJob} {demand : Int} {r : JobRegistry × Option Event}
    (h : reg.onDemandChange job demand = .ok r) :
    ∃ e, reg.jobRootEpochs job.id = some e ∧ 0 < e ∧ r = ({ reg with
      jobRootEpochs := Function.update reg.jobRootEpochs job.id (some (e + 1)) },
      some ⟨job.id, e + 1, demand, job.priority⟩) := by
  rw [JobRegistry.onDemandChange] at h
  split at h
  · obtain ⟨r', hr, rfl⟩ := Runs.exists_of_map_eq_ok h
    obtain ⟨e, he, hpos, h2, h1⟩ := nextEpoch_ok hr
    exact ⟨e, he, hpos, by rw [h1, h2]⟩
  · cases h

theorem rootCall_of_ok (hc : IsRootCall j c) (h : reg.call c = .ok (reg', event)) :
    RootCall j reg reg' c event := by
  cases c with
  | onProbe jobId => cases hc
  | onActivate job demand =>
      obtain ⟨rfl, hroot, hp⟩ := hc
      simp only [JobRegistry.call, JobRegistry.onActivate, hroot] at h
      split at h
      · obtain ⟨e, he, hpos, heq⟩ := onDemandChange_ok h
        obtain ⟨rfl, rfl⟩ := Prod.mk.inj heq
        exact .changed _ (by simp) e demand _ he (by simp) hpos hp
      · simp only [Bool.not_true, Bool.false_eq_true, if_false] at h
        split at h
        · obtain ⟨rfl, rfl⟩ := Prod.mk.inj (Except.ok.inj h)
          exact .quiet _ (by simp) (Or.inl rfl)
        · next hnone =>
            obtain ⟨rfl, rfl⟩ := Prod.mk.inj (Except.ok.inj h)
            exact .quiet _ (by simp) (Or.inr ⟨by simpa using hnone, by simp⟩)
  | onDemandChange job demand =>
      obtain ⟨rfl, hroot, hp⟩ := hc
      obtain ⟨e, he, hpos, heq⟩ := onDemandChange_ok h
      obtain ⟨rfl, rfl⟩ := Prod.mk.inj heq
      exact .changed _ (by simp) e demand _ he (by simp) hpos hp
  | onSuspend job =>
      obtain ⟨rfl, hroot, hp⟩ := hc
      simp only [JobRegistry.call, JobRegistry.onSuspend, hroot, Bool.not_true, Bool.false_eq_true, if_false] at h
      obtain ⟨r, hr, heq⟩ := Runs.exists_of_map_eq_ok h
      obtain ⟨e, he, hpos, h2, h1⟩ := nextEpoch_ok hr
      obtain ⟨rfl, rfl⟩ := Prod.mk.inj heq
      rw [h2]
      refine .changed _ (by simp) e 1 _ ?_ ?_ hpos hp
      · split at he <;> exact he
      · rw [h1]; simp
  | onTerminate job =>
      obtain ⟨rfl, hroot, hp⟩ := hc
      simp only [JobRegistry.call, JobRegistry.onTerminate, hroot, Bool.not_true, Bool.false_eq_true, if_false] at h
      split at h
      · next hnone =>
          obtain ⟨rfl, rfl⟩ := Prod.mk.inj (Except.ok.inj h)
          refine .quiet _ (fun _ _ => hnone) (Or.inl ?_)
          split <;> rfl
      · next e he =>
          split at h
          · obtain ⟨rfl, rfl⟩ := Prod.mk.inj (Except.ok.inj h)
            refine .ended job e ?_ (by simp)
            split at he <;> exact he
          · cases h

theorem call_other (hc : jobIdOf c ≠ j) (h : reg.call c = .ok (reg', event)) :
    reg'.jobRootEpochs j = reg.jobRootEpochs j ∧ ∀ ev, event = some ev → ev.jobId ≠ j := by
  have hdemand {job : BalancedJob} {demand : Int} (hj : job.id ≠ j)
      (h : reg.onDemandChange job demand = .ok (reg', event)) :
      reg'.jobRootEpochs j = reg.jobRootEpochs j ∧ ∀ ev, event = some ev → ev.jobId ≠ j := by
    obtain ⟨e, he, hpos, heq⟩ := onDemandChange_ok h
    obtain ⟨rfl, rfl⟩ := Prod.mk.inj heq
    refine ⟨by simp [Ne.symm hj], ?_⟩
    rintro ev hev
    obtain rfl := Option.some.inj hev
    exact hj
  cases c with
  | onProbe jobId =>
      obtain ⟨rfl, rfl⟩ := Prod.mk.inj (Except.ok.inj h)
      refine ⟨rfl, fun ev hev => ?_⟩
      obtain rfl := Option.some.inj hev
      exact hc
  | onActivate job demand =>
      have hj : job.id ≠ j := hc
      simp only [JobRegistry.call, JobRegistry.onActivate] at h
      split at h
      · split at h
        · exact hdemand hj h
        · obtain ⟨rfl, rfl⟩ := Prod.mk.inj (Except.ok.inj h)
          exact ⟨rfl, by simp⟩
      · split at h
        · obtain ⟨rfl, rfl⟩ := Prod.mk.inj (Except.ok.inj h)
          exact ⟨rfl, by simp⟩
        · split at h
          · obtain ⟨rfl, rfl⟩ := Prod.mk.inj (Except.ok.inj h)
            exact ⟨rfl, by simp⟩
          · obtain ⟨rfl, rfl⟩ := Prod.mk.inj (Except.ok.inj h)
            exact ⟨by simp [Ne.symm hj], by simp⟩
  | onDemandChange job demand => exact hdemand hc h
  | onSuspend job =>
      have hj : job.id ≠ j := hc
      simp only [JobRegistry.call, JobRegistry.onSuspend] at h
      have hsame : (if reg.activeJobId = job.id then { reg with activeJobId := -1 } else reg).jobRootEpochs =
          reg.jobRootEpochs := by split <;> rfl
      split at h
      · obtain ⟨rfl, rfl⟩ := Prod.mk.inj (Except.ok.inj h)
        exact ⟨by rw [hsame], by simp⟩
      · obtain ⟨r, hr, heq⟩ := Runs.exists_of_map_eq_ok h
        obtain ⟨e, he, hpos, h2, h1⟩ := nextEpoch_ok hr
        obtain ⟨rfl, rfl⟩ := Prod.mk.inj heq
        refine ⟨by rw [h1]; simp [Ne.symm hj, hsame], ?_⟩
        rintro ev hev
        obtain rfl := Option.some.inj hev
        exact hj
  | onTerminate job =>
      have hj : job.id ≠ j := hc
      simp only [JobRegistry.call, JobRegistry.onTerminate] at h
      have hsame : (if reg.activeJobId = job.id then { reg with activeJobId := -1 } else reg).jobRootEpochs =
          reg.jobRootEpochs := by split <;> rfl
      split at h
      · obtain ⟨rfl, rfl⟩ := Prod.mk.inj (Except.ok.inj h)
        exact ⟨by rw [hsame], by simp⟩
      · split at h
        · obtain ⟨rfl, rfl⟩ := Prod.mk.inj (Except.ok.inj h)
          exact ⟨by rw [hsame], by simp⟩
        · split at h
          · obtain ⟨rfl, rfl⟩ := Prod.mk.inj (Except.ok.inj h)
            refine ⟨by simp [Ne.symm hj, hsame], ?_⟩
            rintro ev hev
            obtain rfl := Option.some.inj hev
            exact hj
          · cases h

end registry

/-- No tombstone of the job is on its way: none in the diffs and reductions
from its rank to the root, none in a broadcast that a rank there has still to
digest. -/
structure Settled (s : BalancerSystem) (j : Int) (o : Nat) : Prop where
  diffs : ∀ r ∈ path o, (s.ranks r).diffs.map[j]? ≠ some (tombstone j)
  reductions : ∀ r ∈ path o, ∀ m ∈ s.net .reduceData r (parentRank r), m.map[j]? ≠ some (tombstone j)
  broadcasts : ∀ r ∈ path o, ∀ i m, (s.ranks 0).digested[i]? = some m → m.map[j]? = some (tombstone j) →
    i < (s.ranks r).digested.length

/-- A call which pushes an event of the job other than its tombstone is made
when no tombstone is on its way, and before the epochs reach that of a tombstone. -/
def Waits (s : CallSystem) (j : Int) (o : Nat) : CallAction → Prop
  | .call rank c _ => ∀ reg event, (s.registries rank).call c = .ok (reg, some event) → event.jobId = j →
      event ≠ tombstone j → Settled s.system j o ∧ event.epoch < intMax
  | _ => True

def Patient (cfg : BalancerConfig) (j : Int) (o : Nat) (actions : List CallAction) : Prop :=
  ∀ before a after, actions = before ++ a :: after → ∀ s, CallSystem.run cfg .start before = .ok s → Waits s j o a

structure RootJobAt (cfg : BalancerConfig) (j : Int) (o : Nat) (actions : List CallAction) : Prop where
  origin_lt : o < cfg.size
  at_origin : ∀ rank c ready, .call rank c ready ∈ actions → jobIdOf c = j → rank = o ∧ IsRootCall j c

def callsFor (j : Int) (actions : List CallAction) : List BalancerCall :=
  actions.filterMap fun
    | .call _ c _ => if jobIdOf c = j then some c else none
    | _ => none

def lastPushed (j : Int) (s : CallSystem) : Option Event := (s.pushed.filter fun ev => ev.jobId = j).getLast?

section line

variable {cfg : BalancerConfig} {s : BalancerSystem} {j : Int} {o mark : Nat}

theorem exists_last_map {maps : List EventMap} {ev : Event} (h : (jobEvents j maps).getLast? = some ev) :
    ∃ front m back, maps = front ++ m :: back ∧ m.map[j]? = some ev ∧ jobEvents j back = [] := by
  induction maps using List.reverseRecOn with
  | nil => cases h
  | append_singleton maps m ih =>
      cases hm : m.map[j]? with
      | none =>
          rw [jobEvents_append, jobEvents_cons, hm] at h
          obtain ⟨front, m', back, rfl, hm', hback⟩ := ih (by simpa using h)
          exact ⟨front, m', back ++ [m], by simp, hm', by simp [hback, hm]⟩
      | some e =>
          rw [jobEvents_append, jobEvents_cons, hm] at h
          obtain rfl : e = ev := by simpa using h
          exact ⟨maps, m, [], rfl, hm, rfl⟩

/-- Once a tombstone at the end of the line has been digested everywhere on
the path, the line begins anew. -/
theorem JobLine.renew (h : JobLine cfg s j o mark (some (tombstone j))) (hs : Settled s j o) :
    ∃ mark', JobLine cfg s j o mark' none := by
  have hblocks : (path o).flatMap (block s j) = [] := by
    by_contra hne
    obtain ⟨x, hx⟩ : ∃ x, ((path o).flatMap (block s j)).getLast? = some x :=
      Option.isSome_iff_exists.mp (by simpa using hne)
    have hlast := h.newest_eq
    rw [line, List.getLast?_append, hx] at hlast
    obtain rfl : x = tombstone j := by simpa using hlast
    obtain ⟨r, hr, hmem⟩ := List.mem_flatMap.mp (List.mem_of_getLast? hx)
    rcases List.mem_append.mp hmem with hchan | hdiffs
    · obtain ⟨m, hm, hmj⟩ := mem_jobEvents.mp hchan
      exact hs.reductions r hr m hm hmj
    · exact hs.diffs r hr (by simpa using hdiffs)
  have hline : line s j o mark = jobEvents j ((s.ranks 0).digested.drop mark) := by
    rw [line, hblocks, List.append_nil]
  have hlast := h.newest_eq
  rw [hline] at hlast
  obtain ⟨front, m, back, hsplit, hm, hback⟩ := exists_last_map hlast
  have hall : (s.ranks 0).digested = ((s.ranks 0).digested.take mark ++ (front ++ [m])) ++ back := by
    rw [List.append_assoc, List.append_assoc, List.singleton_append, ← hsplit, List.take_append_drop]
  obtain ⟨first, hfirst⟩ : ∃ first, first = (s.ranks 0).digested.take mark ++ (front ++ [m]) := ⟨_, rfl⟩
  rw [← hfirst] at hall
  have hget : (s.ranks 0).digested[first.length - 1]? = some m := by
    rw [hall, hfirst, ← List.append_assoc]
    simp
  have hpos : 0 < first.length := by simp [hfirst]
  have hempty : line s j o first.length = [] := by
    rw [line, hblocks, hall, List.drop_left, hback, List.append_nil]
  refine ⟨first.length, h.origin_lt, ?_, ?_, ?_, ?_, ?_, h.off⟩
  · intro r hr
    have := hs.broadcasts r hr _ m hget hm
    omega
  · rw [hall, List.take_left, hfirst]
    have ho := h.ordered
    have hfm : jobEvents j ((s.ranks 0).digested.drop mark) = jobEvents j (front ++ [m]) := by
      rw [hsplit, List.append_cons, jobEvents_append, hback, List.append_nil]
    rw [hline, hfm] at ho
    rw [lookup_replay h.forgotten ho fun ev hev => h.nonneg ev (by rw [hline, hfm]; exact hev), ← hfm, hlast]
    simp [EventMap.isOldZero, tombstone]
  · rw [hempty]; exact List.Pairwise.nil
  · rw [hempty]; simp
  · rw [hempty]; rfl

end line

structure Registered (cfg : BalancerConfig) (j : Int) (o : Nat) (actions : List CallAction) (s : CallSystem) : Prop where
  agreement : Agreement cfg s.system
  upward : Upward s.system
  lines : ∃ mark, JobLine cfg s.system j o mark (lastPushed j s)
  counted : ∀ e n, (s.registries o).jobRootEpochs j = some e → lastPushed j s = some n →
    n = tombstone j ∨ n.epoch ≤ e
  proper : ∀ n, lastPushed j s = some n → n = tombstone j ∨ n.epoch < intMax ∧ EventMap.isOldZero n = false
  ended : (s.registries o).jobRootEpochs j = none → ∀ n, lastPushed j s = some n → n = tombstone j
  terminated : ∀ job, (callsFor j actions).getLast? = some (.onTerminate job) →
    (s.registries o).jobRootEpochs j = none

section run

variable {cfg : BalancerConfig} {j : Int} {o : Nat} {actions : List CallAction} {s s' : CallSystem}

theorem lastPushed_other {ev : Event} (h : ev.jobId ≠ j) (hp : s'.pushed = s.pushed ++ [ev]) :
    lastPushed j s' = lastPushed j s := by
  simp [lastPushed, hp, List.filter_append, h]

theorem lastPushed_own {ev : Event} (h : ev.jobId = j) (hp : s'.pushed = s.pushed ++ [ev]) :
    lastPushed j s' = some ev := by
  simp [lastPushed, hp, List.filter_append, h]

theorem callsFor_append (j : Int) (as bs : List CallAction) :
    callsFor j (as ++ bs) = callsFor j as ++ callsFor j bs := List.filterMap_append

theorem Registered.of_other (h : Registered cfg j o actions s) {a : CallAction} {b : BalancerAction}
    (hb : ∀ rank event ready, b = .pushEvent rank event ready → event.jobId ≠ j)
    (hs : s.system.step cfg b = .ok s'.system) (hreg : (s'.registries o).jobRootEpochs j = (s.registries o).jobRootEpochs j)
    (hlast : lastPushed j s' = lastPushed j s) (hcalls : callsFor j [a] = []) :
    Registered cfg j o (actions ++ [a]) s' where
  agreement := agreement_step h.agreement hs
  upward := upward_step h.upward hs
  lines := by
    obtain ⟨mark, hline⟩ := h.lines
    rw [hlast]
    exact ⟨mark, jobLine_step hline h.agreement h.upward hb hs⟩
  counted := by rw [hreg, hlast]; exact h.counted
  proper := by rw [hlast]; exact h.proper
  ended := by rw [hreg, hlast]; exact h.ended
  terminated := by rw [hreg, callsFor_append, hcalls, List.append_nil]; exact h.terminated

theorem Registered.of_quiet (h : Registered cfg j o actions s) {c : BalancerCall} {ready : Bool}
    (hc : jobIdOf c = j) (hsys : s'.system = s.system) (hpushed : s'.pushed = s.pushed)
    (hr : RootCall j (s.registries o) (s'.registries o) c none) :
    Registered cfg j o (actions ++ [.call o c ready]) s' := by
  have hlast : lastPushed j s' = lastPushed j s := by rw [lastPushed, hpushed, lastPushed]
  cases hr with
  | quiet _ hterm hepoch =>
      refine ⟨by rw [hsys]; exact h.agreement, by rw [hsys]; exact h.upward, by rw [hsys, hlast]; exact h.lines, ?_,
        by rw [hlast]; exact h.proper, ?_, ?_⟩
      · intro e n he hn
        rw [hlast] at hn
        rcases hepoch with hepoch | ⟨hnone, _⟩
        · rw [hepoch] at he
          exact h.counted e n he hn
        · exact Or.inl (h.ended hnone n hn)
      · intro hnone n hn
        rw [hlast] at hn
        rcases hepoch with hepoch | ⟨_, hsome⟩
        · rw [hepoch] at hnone
          exact h.ended hnone n hn
        · rw [hsome] at hnone
          cases hnone
      · intro job hlast
        rw [callsFor_append, show callsFor j [.call o c ready] = [c] by simp [callsFor, hc],
          List.getLast?_concat] at hlast
        exact hterm job (Option.some.inj hlast)

theorem Registered.of_push (h : Registered cfg j o actions s) {c : BalancerCall} {ready : Bool} {ev : Event}
    (hc : jobIdOf c = j) (hs : s.system.step cfg (.pushEvent o ev ready) = .ok s'.system)
    (hpushed : s'.pushed = s.pushed ++ [ev]) (hr : RootCall j (s.registries o) (s'.registries o) c (some ev))
    (hwait : ev ≠ tombstone j → Settled s.system j o ∧ ev.epoch < intMax) :
    Registered cfg j o (actions ++ [.call o c ready]) s' := by
  obtain ⟨mark, hline⟩ := h.lines
  have hcalls : callsFor j (actions ++ [.call o c ready]) = callsFor j actions ++ [c] := by
    rw [callsFor_append, show callsFor j [.call o c ready] = [c] by simp [callsFor, hc]]
  cases hr with
  | changed _ hterm e demand priority he he' hpos hp =>
      have hne : (⟨j, e + 1, demand, priority⟩ : Event) ≠ tombstone j := by
        intro heq
        have : priority = 0 := congrArg Event.priority heq
        exact hp.ne' this
      obtain ⟨hsettled, hlt⟩ := hwait hne
      have hlast : lastPushed j s' = some ⟨j, e + 1, demand, priority⟩ := lastPushed_own rfl hpushed
      refine ⟨agreement_step h.agreement hs, upward_step h.upward hs, ?_, ?_, ?_, ?_, ?_⟩
      · rw [hlast]
        by_cases hold : lastPushed j s = some (tombstone j)
        · rw [hold] at hline
          obtain ⟨mark', hnew⟩ := JobLine.renew hline hsettled
          exact ⟨mark', jobLine_push hnew h.agreement h.upward rfl (by simp only; omega) (by simp) hs⟩
        · refine ⟨mark, jobLine_push hline h.agreement h.upward rfl (by simp only; omega) ?_ hs⟩
          intro n hn
          rcases h.counted e n he hn with rfl | hle
          · exact absurd hn hold
          · exact Or.inl (by simp only; omega)
      · intro e₂ n he₂ hn
        rw [hlast] at hn
        rw [he'] at he₂
        obtain rfl := Option.some.inj hn
        obtain rfl := Option.some.inj he₂
        exact Or.inr le_rfl
      · intro n hn
        rw [hlast] at hn
        obtain rfl := Option.some.inj hn
        exact Or.inr ⟨hlt, by simp [EventMap.isOldZero, not_le.mpr hp]⟩
      · intro hnone
        rw [he'] at hnone
        cases hnone
      · intro job hl
        rw [hcalls, List.getLast?_concat] at hl
        exact absurd (Option.some.inj hl) (hterm job)
  | ended job e he he' =>
      have hlast : lastPushed j s' = some (tombstone j) := lastPushed_own rfl hpushed
      refine ⟨agreement_step h.agreement hs, upward_step h.upward hs, ?_, ?_, ?_, ?_, fun _ _ => he'⟩
      · rw [hlast]
        refine ⟨mark, jobLine_push hline h.agreement h.upward rfl (by simp [tombstone, intMax]) ?_ hs⟩
        intro n hn
        rcases h.proper n hn with rfl | ⟨hlt, _⟩
        · exact Or.inr rfl
        · exact Or.inl hlt
      · intro e₂ n he₂ hn
        rw [he'] at he₂
        cases he₂
      · intro n hn
        rw [hlast] at hn
        exact Or.inl (Option.some.inj hn).symm
      · intro _ n hn
        rw [hlast] at hn
        exact (Option.some.inj hn).symm

theorem registered_start (ho : o < cfg.size) : Registered cfg j o [] .start := by
  have hblock : ∀ r, block BalancerSystem.start j r = [] := fun r => by
    simp [block, BalancerSystem.start, Network.empty, EventDrivenBalancer.start]
  have hline : line BalancerSystem.start j o 0 = [] := by
    rw [line, funext hblock]
    simp [BalancerSystem.start, EventDrivenBalancer.start]
  refine ⟨agreement_start, upward_start, ⟨0, ho, fun _ _ => Nat.zero_le _, ?_, ?_, ?_, ?_, fun r _ => hblock r⟩, ?_, ?_,
    ?_, ?_⟩
  · simp [replay]
  · exact hline ▸ List.Pairwise.nil
  · intro ev hev
    rw [CallSystem.start, hline] at hev
    cases hev
  · rw [CallSystem.start, hline]; rfl
  · intro e n he; cases he
  · intro n hn; cases hn
  · intro _ n hn; cases hn
  · intro job hl; cases hl

theorem registered_step {a : CallAction} (h : Registered cfg j o actions s) (hjob : RootJobAt cfg j o (actions ++ [a]))
    (hwait : Waits s j o a) (hs : s.step cfg a = .ok s') : Registered cfg j o (actions ++ [a]) s' := by
  cases a with
  | advance rank ready =>
      obtain ⟨system, hsys, rfl⟩ := Runs.exists_of_map_eq_ok hs
      exact h.of_other (by simp) hsys rfl rfl rfl
  | deliver tag source rank ready =>
      obtain ⟨system, hsys, rfl⟩ := Runs.exists_of_map_eq_ok hs
      exact h.of_other (by simp) hsys rfl rfl rfl
  | call rank c ready =>
      simp only [CallSystem.step] at hs
      split at hs
      · next hr =>
          by_cases hc : jobIdOf c = j
          · obtain ⟨rfl, hroot⟩ := hjob.at_origin rank c ready (by simp) hc
            split at hs
            · cases hs
            · next reg hcall =>
                obtain rfl := Except.ok.inj hs
                refine h.of_quiet hc rfl rfl ?_
                simp only [Function.update_self]
                exact rootCall_of_ok hroot hcall
            · next reg event hcall =>
                obtain ⟨system, hsys, rfl⟩ := Runs.exists_of_map_eq_ok hs
                have hrc := rootCall_of_ok hroot hcall
                have hid : event.jobId = j := by cases hrc <;> rfl
                refine h.of_push hc hsys rfl ?_ (hwait reg event hcall hid)
                simp only [Function.update_self]
                exact hrc
          · have hcalls : callsFor j [.call rank c ready] = [] := by simp [callsFor, hc]
            have hreg : ∀ reg ev, (s.registries rank).call c = .ok (reg, ev) →
                (Function.update s.registries rank reg o).jobRootEpochs j = (s.registries o).jobRootEpochs j := by
              intro reg ev hcall
              by_cases hor : o = rank
              · subst hor; rw [Function.update_self]; exact (call_other hc hcall).1
              · rw [Function.update_of_ne hor]
            split at hs
            · cases hs
            · next reg hcall =>
                obtain rfl := Except.ok.inj hs
                refine ⟨h.agreement, h.upward, h.lines, ?_, h.proper, ?_, ?_⟩
                · rw [hreg reg none hcall]; exact h.counted
                · rw [hreg reg none hcall]; exact h.ended
                · rw [hreg reg none hcall, callsFor_append, hcalls, List.append_nil]; exact h.terminated
            · next reg event hcall =>
                obtain ⟨system, hsys, rfl⟩ := Runs.exists_of_map_eq_ok hs
                have hne := (call_other hc hcall).2 event rfl
                refine h.of_other ?_ hsys (hreg reg _ hcall) (lastPushed_other hne rfl) hcalls
                rintro rank' event' ready' heq
                cases heq
                exact hne
      · next hr =>
          obtain rfl := Except.ok.inj hs
          have hcalls : callsFor j [.call rank c ready] = [] := by
            have hc : jobIdOf c ≠ j := by
              intro hc
              obtain ⟨rfl, _⟩ := hjob.at_origin rank c ready (by simp) hc
              exact hr hjob.origin_lt
            simp [callsFor, hc]
          refine ⟨h.agreement, h.upward, h.lines, h.counted, h.proper, h.ended, ?_⟩
          rw [callsFor_append, hcalls, List.append_nil]
          exact h.terminated

theorem registered_run (hjob : RootJobAt cfg j o actions) (hwait : Patient cfg j o actions)
    (h : CallSystem.run cfg .start actions = .ok s) : Registered cfg j o actions s := by
  induction actions using List.reverseRecOn generalizing s with
  | nil => obtain rfl := Except.ok.inj h; exact registered_start hjob.origin_lt
  | append_singleton actions a ih =>
      obtain ⟨s₁, hr, hs⟩ := Runs.run_concat h
      have hjob' : RootJobAt cfg j o actions :=
        ⟨hjob.origin_lt, fun rank c ready hm => hjob.at_origin rank c ready (List.mem_append_left _ hm)⟩
      have hwait' : Patient cfg j o actions := by
        rintro before b after rfl s₂ hr₂
        exact hwait before b (after ++ [a]) (by simp) s₂ hr₂
      exact registered_step (ih hjob' hwait' hr) hjob (hwait actions a [] rfl s₁ hr) hs

end run

def Quiet (cfg : BalancerConfig) (s : BalancerSystem) : Prop :=
  (∀ tag, ∀ src < cfg.size, ∀ dst < cfg.size, s.net tag src dst = []) ∧
    ∀ r < cfg.size, (s.ranks r).diffs.isEmpty = true

/-- With nothing on its way, the root knows the last event pushed for the job. -/
theorem quiet_root {cfg : BalancerConfig} {s : BalancerSystem} {j : Int} {o mark : Nat} {newest : Option Event}
    (h : JobLine cfg s j o mark newest) (ha : Agreement cfg s) (hq : Quiet cfg s) :
    (s.ranks 0).states.map[j]? = newest.filter fun ev => !EventMap.isOldZero ev := by
  have hblocks : (path o).flatMap (block s j) = [] := by
    rw [List.flatMap_eq_nil_iff]
    intro r hr
    have hlt : r < cfg.size := (le_of_mem_path hr).trans_lt h.origin_lt
    have hparent : parentRank r < cfg.size := by
      by_cases h0 : r = 0
      · subst h0; exact hlt
      · exact (parentRank_lt h0).trans hlt
    rw [block, hq.1 _ r hlt _ hparent, (EventMap.isEmpty_iff _).mp (hq.2 r hlt) j]
    rfl
  have hline : line s j o mark = jobEvents j ((s.ranks 0).digested.drop mark) := by
    rw [line, hblocks, List.append_nil]
  rw [h.root_knows ha, ← hline, h.newest_eq]

/-- In every run whose calls wait for the job's tombstones, the last event
pushed for the job is not dropped, and in the end the root knows that event,
or nothing about a job which was terminated. -/
theorem last_event_known {cfg : BalancerConfig} {j : Int} {o : Nat} {actions : List CallAction} {s : CallSystem}
    (hjob : RootJobAt cfg j o actions) (hwait : Patient cfg j o actions)
    (h : CallSystem.run cfg .start actions = .ok s) :
    (∀ ev, lastPushed j s = some ev →
      (∃ r ∈ path o, (s.system.ranks r).diffs.map[j]? = some ev) ∨
      (∃ r ∈ path o, ∃ m ∈ s.system.net .reduceData r (parentRank r), m.map[j]? = some ev) ∨
      Applied cfg (s.system.ranks 0) ev) ∧
    (Quiet cfg s.system →
      (∀ ev, lastPushed j s = some ev → ev ≠ tombstone j → (s.system.ranks 0).states.map[j]? = some ev) ∧
      (∀ job, (callsFor j actions).getLast? = some (.onTerminate job) →
        (s.system.ranks 0).states.map[j]? = none)) := by
  have hr := registered_run hjob hwait h
  obtain ⟨mark, hline⟩ := hr.lines
  refine ⟨?_, ?_⟩
  · intro ev hev
    have hj : ev.jobId = j := by simpa using (List.mem_filter.mp (List.mem_of_getLast? hev)).2
    exact carried_or_applied hline hj hev
  · intro hq
    have hroot := quiet_root hline hr.agreement hq
    refine ⟨?_, ?_⟩
    · intro ev hev hne
      rcases hr.proper ev hev with rfl | ⟨_, hz⟩
      · exact absurd rfl hne
      · rw [hroot, hev]
        simp [hz]
    · intro job hlast
      have hnone := hr.terminated job hlast
      cases hl : lastPushed j s with
      | none => rw [hroot, hl]; rfl
      | some n =>
          rw [hroot, hl, hr.ended hnone n hl]
          simp [EventMap.isOldZero, tombstone]

theorem Patient.concat {cfg : BalancerConfig} {j : Int} {o : Nat} {actions : List CallAction} {a : CallAction}
    (h : Patient cfg j o actions) (ha : ∀ s, CallSystem.run cfg .start actions = .ok s → Waits s j o a) :
    Patient cfg j o (actions ++ [a]) := by
  intro before b after heq s hs
  rcases List.eq_nil_or_concat after with rfl | ⟨after, x, rfl⟩
  · obtain ⟨rfl, hab⟩ := List.append_inj' heq rfl
    obtain rfl : a = b := by simpa using hab
    exact ha s hs
  · rw [List.concat_eq_append, ← List.cons_append, ← List.append_assoc] at heq
    obtain ⟨hpre, _⟩ := List.append_inj' heq rfl
    exact h before b after hpre s hs

/-- A single rank has no tombstone on its way once its diffs are reduced. -/
theorem waits_of_reduced {s : CallSystem} {j : Int} {c : BalancerCall} {ready : Bool} (hc : IsRootCall j c)
    (hs : ((s.system.ranks 0).diffs.map[j]?.isNone && (s.system.net .reduceData 0 0).isEmpty &&
      ((s.registries 0).jobRootEpochs j).all fun e => decide (e < 1000)) = true) :
    Waits s j 0 (.call 0 c ready) := by
  simp only [Bool.and_eq_true, Option.isNone_iff_eq_none, List.isEmpty_iff, Option.all_eq_true,
    decide_eq_true_eq] at hs
  obtain ⟨⟨hdiffs, hnet⟩, hepoch⟩ := hs
  intro reg event hcall _ hne
  refine ⟨⟨?_, ?_, ?_⟩, ?_⟩
  · intro r hr
    obtain rfl : r = 0 := by simpa [path_zero] using hr
    rw [hdiffs]
    simp
  · intro r hr m hm
    obtain rfl : r = 0 := by simpa [path_zero] using hr
    have hm : m ∈ s.system.net .reduceData 0 0 := hm
    rw [hnet] at hm
    cases hm
  · intro r hr i m hm _
    obtain rfl : r = 0 := by simpa [path_zero] using hr
    exact (List.getElem?_eq_some_iff.mp hm).1
  · cases rootCall_of_ok hc hcall with
    | changed _ _ e demand priority he he' hpos hp =>
        have := hepoch e he
        simp only [intMax]
        omega
    | ended job e he he' => exact absurd rfl hne

def lonelyJob : BalancedJob := ⟨7, true, 1⟩

def lonelyRank : BalancerConfig := ⟨1, 1, VolumeCalculator.hashInt, 20⟩

theorem lonely_quiet {s : BalancerSystem} (hnet : s.net .reduceData 0 0 = []) (hnet' : s.net .broadcastData 0 0 = [])
    (hdiffs : (s.ranks 0).diffs.isEmpty = true) : Quiet lonelyRank s := by
  refine ⟨?_, ?_⟩
  · intro tag src hsrc dst hdst
    obtain rfl : src = 0 := by simpa [lonelyRank] using hsrc
    obtain rfl : dst = 0 := by simpa [lonelyRank] using hdst
    cases tag with
    | reduceData => exact hnet
    | broadcastData => exact hnet'
  · intro r hr
    obtain rfl : r = 0 := by simpa [lonelyRank] using hr
    exact hdiffs

theorem last_event_known_reregistered :
    ∃ s, CallSystem.run lonelyRank .start
        [.call 0 (.onActivate lonelyJob 1) true, .call 0 (.onDemandChange lonelyJob 5) true,
          .call 0 (.onTerminate lonelyJob) true, .call 0 (.onActivate lonelyJob 1) true,
          .call 0 (.onDemandChange lonelyJob 4) true] = .ok s ∧
      (s.system.ranks 0).states.map[(7 : Int)]? = some ⟨7, 2, 4, 1⟩ := by
  have hroot : IsRootCall 7 (.onActivate lonelyJob 1) ∧ IsRootCall 7 (.onDemandChange lonelyJob 5) ∧
      IsRootCall 7 (.onTerminate lonelyJob) ∧ IsRootCall 7 (.onDemandChange lonelyJob 4) := by
    simp [IsRootCall, lonelyJob]
  have hjob : RootJobAt lonelyRank 7 0
      [.call 0 (.onActivate lonelyJob 1) true, .call 0 (.onDemandChange lonelyJob 5) true,
        .call 0 (.onTerminate lonelyJob) true, .call 0 (.onActivate lonelyJob 1) true,
        .call 0 (.onDemandChange lonelyJob 4) true] := by
    refine ⟨by decide, ?_⟩
    intro rank c ready hm _
    simp only [List.mem_cons, CallAction.call.injEq, List.not_mem_nil, or_false] at hm
    rcases hm with ⟨rfl, rfl, _⟩ | ⟨rfl, rfl, _⟩ | ⟨rfl, rfl, _⟩ | ⟨rfl, rfl, _⟩ | ⟨rfl, rfl, _⟩ <;>
      simp [IsRootCall, lonelyJob]
  have hreduced (actions : List CallAction)
      (hmap : ((CallSystem.run lonelyRank .start actions).map fun s =>
        (s.system.ranks 0).diffs.map[(7 : Int)]?.isNone && (s.system.net .reduceData 0 0).isEmpty &&
          ((s.registries 0).jobRootEpochs 7).all fun e => decide (e < 1000)) = .ok true) {c : BalancerCall}
      (hc : IsRootCall 7 c) (s : CallSystem) (hs : CallSystem.run lonelyRank .start actions = .ok s) :
      Waits s 7 0 (.call 0 c true) := by
    rw [hs] at hmap
    exact waits_of_reduced hc (Except.ok.inj hmap)
  have hpatient : Patient lonelyRank 7 0
      [.call 0 (.onActivate lonelyJob 1) true, .call 0 (.onDemandChange lonelyJob 5) true,
        .call 0 (.onTerminate lonelyJob) true, .call 0 (.onActivate lonelyJob 1) true,
        .call 0 (.onDemandChange lonelyJob 4) true] := by
    have h0 : Patient lonelyRank 7 0 [] := by
      intro before a after heq
      simp at heq
    have h1 := h0.concat (hreduced [] (by decide +kernel) hroot.1)
    have h2 := h1.concat (hreduced _ (by decide +kernel) hroot.2.1)
    have h3 := h2.concat (hreduced _ (by decide +kernel) hroot.2.2.1)
    have h4 := h3.concat (hreduced _ (by decide +kernel) hroot.1)
    exact h4.concat (hreduced _ (by decide +kernel) hroot.2.2.2)
  have hrun : ((CallSystem.run lonelyRank .start
      [.call 0 (.onActivate lonelyJob 1) true, .call 0 (.onDemandChange lonelyJob 5) true,
        .call 0 (.onTerminate lonelyJob) true, .call 0 (.onActivate lonelyJob 1) true,
        .call 0 (.onDemandChange lonelyJob 4) true]).map fun s =>
      (lastPushed 7 s, s.system.net .reduceData 0 0, s.system.net .broadcastData 0 0,
        (s.system.ranks 0).diffs.isEmpty)) = .ok (some ⟨7, 2, 4, 1⟩, [], [], true) := by decide +kernel
  obtain ⟨s, hs, heq⟩ := Runs.exists_of_map_eq_ok hrun
  obtain ⟨hlast, hnet, hnet', hdiffs⟩ : lastPushed 7 s = some ⟨7, 2, 4, 1⟩ ∧ s.system.net .reduceData 0 0 = [] ∧
      s.system.net .broadcastData 0 0 = [] ∧ (s.system.ranks 0).diffs.isEmpty = true := by simpa using heq
  exact ⟨s, hs, ((last_event_known hjob hpatient hs).2 (lonely_quiet hnet hnet' hdiffs)).1 _ hlast (by decide)⟩

/-- The tombstone still in the diffs rejects the first event of the job's next
life, whose epochs start over, and the root never hears of it. -/
theorem last_event_dropped :
    ∃ s, CallSystem.run lonelyRank .start
        [.call 0 (.onActivate lonelyJob 1) true, .call 0 (.onDemandChange lonelyJob 5) true,
          .call 0 (.onTerminate lonelyJob) false, .call 0 (.onActivate lonelyJob 1) false,
          .call 0 (.onDemandChange lonelyJob 4) false, .advance 0 true] = .ok s ∧
      Quiet lonelyRank s.system ∧ lastPushed 7 s = some ⟨7, 2, 4, 1⟩ ∧
      (s.system.ranks 0).states.map[(7 : Int)]? = none := by
  have hrun : ((CallSystem.run lonelyRank .start
      [.call 0 (.onActivate lonelyJob 1) true, .call 0 (.onDemandChange lonelyJob 5) true,
        .call 0 (.onTerminate lonelyJob) false, .call 0 (.onActivate lonelyJob 1) false,
        .call 0 (.onDemandChange lonelyJob 4) false, .advance 0 true]).map fun s =>
      (lastPushed 7 s, s.system.net .reduceData 0 0, s.system.net .broadcastData 0 0,
        (s.system.ranks 0).diffs.isEmpty, (s.system.ranks 0).states.map[(7 : Int)]?)) =
      .ok (some ⟨7, 2, 4, 1⟩, [], [], true, none) := by decide +kernel
  obtain ⟨s, hs, heq⟩ := Runs.exists_of_map_eq_ok hrun
  obtain ⟨hlast, hnet, hnet', hdiffs, hstates⟩ : lastPushed 7 s = some ⟨7, 2, 4, 1⟩ ∧
      s.system.net .reduceData 0 0 = [] ∧ s.system.net .broadcastData 0 0 = [] ∧
      (s.system.ranks 0).diffs.isEmpty = true ∧ (s.system.ranks 0).states.map[(7 : Int)]? = none := by
    simpa using heq
  exact ⟨s, hs, lonely_quiet hnet hnet' hdiffs, hlast, hstates⟩

-- a broadcast of the tombstone that has still to be digested does the same to an event that waits in the diffs
example : ((CallSystem.run { lonelyRank with size := 2 } .start
    [.call 1 (.onActivate lonelyJob 1) true, .call 1 (.onDemandChange lonelyJob 5) true,
      .deliver .reduceData 1 0 true, .deliver .broadcastData 0 1 true, .call 1 (.onTerminate lonelyJob) true,
      .deliver .reduceData 1 0 true, .call 1 (.onActivate lonelyJob 1) true,
      .call 1 (.onDemandChange lonelyJob 4) false, .deliver .broadcastData 0 1 true]).map fun s =>
    (lastPushed 7 s, s.system.net .reduceData 1 0, s.system.net .broadcastData 0 1,
      (s.system.ranks 1).diffs.isEmpty, (s.system.ranks 0).states.map[(7 : Int)]?)) =
    .ok (some ⟨7, 2, 4, 1⟩, [], [], true, none) := by decide +kernel

end Mallob.Reregistration
