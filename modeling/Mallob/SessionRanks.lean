import Mallob.NodeMerging
import Mallob.SchedulerLifeCycle
import Mallob.SessionMoves

namespace Mallob.SessionRanks

open InactiveJobNode InactiveJobNodeList NodeMerging GroupedJoin Runs

section lists

variable {nodes nodes' : InactiveJobNodeList}

theorem UniqueRanks.mono (h : UniqueRanks nodes) (hsub : ∀ n ∈ nodes'.toList, n ∈ nodes.toList) :
    UniqueRanks nodes' :=
  uniqueRanks_iff.mpr fun n hn m hm => uniqueRanks_iff.mp h n (hsub n hn) m (hsub m hm)

theorem UniqueRanks.setStatuses (h : UniqueRanks nodes) (f : InactiveJobNode → Status) :
    UniqueRanks (InactiveJobNodeList.setStatuses nodes f) := by
  have heq : (InactiveJobNodeList.setStatuses nodes f).toList.map (·.rank) = nodes.toList.map (·.rank) :=
    (List.map_map ..).trans rfl
  rw [UniqueRanks, heq]
  exact h

theorem UniqueRanks.cleanUpStatuses (h : UniqueRanks nodes) :
    UniqueRanks (InactiveJobNodeList.cleanUpStatuses nodes) :=
  UniqueRanks.mono (UniqueRanks.setStatuses h _) fun _ hn => ((OrderedSet.mem_eraseAll_iff _).mp hn).1

theorem UniqueRanks.rekey (h : UniqueRanks nodes) {n x : InactiveJobNode} (hn : n ∈ nodes.toList)
    (hrank : x.rank = n.rank) : UniqueRanks ((nodes.erase n).insert x) := by
  rw [uniqueRanks_iff] at h ⊢
  have hother : ∀ a ∈ (nodes.erase n).toList, a.rank ≠ x.rank := by
    intro a ha heq
    obtain ⟨ha, hne⟩ := (OrderedSet.mem_erase_iff _).mp ha
    obtain rfl := h a ha n hn (heq.trans hrank)
    rw [equivalent_self] at hne
    cases hne
  intro a ha b hb heq
  rcases OrderedSet.mem_of_mem_insert ha with rfl | ha'
  · rcases OrderedSet.mem_of_mem_insert hb with rfl | hb'
    · rfl
    · exact absurd heq.symm (hother b hb')
  · rcases OrderedSet.mem_of_mem_insert hb with rfl | hb'
    · exact absurd heq (hother a ha')
    · exact h a ((OrderedSet.mem_erase_iff _).mp ha').1 b ((OrderedSet.mem_erase_iff _).mp hb').1 heq

theorem UniqueRanks.split {update : JobSchedulingUpdate} (h : UniqueRanks update.inactiveJobNodes) (index : Nat) :
    UniqueRanks (update.split index).1 ∧ UniqueRanks (update.split index).2 :=
  ⟨UniqueRanks.mono h fun _ hn => JobSchedulingUpdate.mem_split (Or.inl hn),
    UniqueRanks.mono h fun _ hn => JobSchedulingUpdate.mem_split (Or.inr hn)⟩

end lists

section sessions

open ChildInterface

variable {c : ChildInterface} (h : UniqueRanks c.nodes)

include h

theorem notifyRemainingInactiveNodes_unique (particularIndex : Option Nat) :
    UniqueRanks (c.notifyRemainingInactiveNodes particularIndex).1.nodes := UniqueRanks.setStatuses h _

theorem recruitChild_unique : UniqueRanks c.recruitChild.1.nodes := by
  rw [recruitChild]
  cases c.candidate with
  | some node => exact h
  | none => exact notifyRemainingInactiveNodes_unique h _

theorem handleBalancingUpdate_unique (newEpoch newVolume : Int) (hasChild : Bool) :
    UniqueRanks (c.handleBalancingUpdate newEpoch newVolume hasChild).1.nodes := by
  have hrenew : UniqueRanks (c.renew newEpoch newVolume).nodes := UniqueRanks.setStatuses h _
  rcases c.handleBalancingUpdate_cases newEpoch newVolume hasChild with ⟨heq, _⟩ | ⟨heq, _⟩ | ⟨heq, _⟩
  · rw [heq]
    exact h
  · rw [heq]
    exact recruitChild_unique hrenew
  · rw [heq]
    exact notifyRemainingInactiveNodes_unique hrenew _

theorem findAndUpdateNode_unique (rank : Int) (index : Nat) (epoch : Int) (status : Status) :
    UniqueRanks (c.findAndUpdateNode rank index epoch status).nodes := by
  rw [findAndUpdateNode]
  cases hfind : c.findNode rank index with
  | none => exact h
  | some n =>
      exact UniqueRanks.rekey h (findNode_some hfind).1 rfl

theorem handleRejectionOfPotentialChild_unique (epoch : Int) (lost hasChild suspended : Bool) :
    UniqueRanks (c.handleRejectionOfPotentialChild epoch lost hasChild suspended).1.nodes := by
  have hrejected : UniqueRanks (c.rejected epoch lost).nodes := findAndUpdateNode_unique h _ _ _ _
  rw [handleRejectionOfPotentialChild_eq]
  split
  · exact recruitChild_unique hrejected
  · exact hrejected

theorem handleChildJoining_unique (source epoch : Int) : UniqueRanks (c.handleChildJoining source epoch).1.nodes := by
  rw [handleChildJoining_fst]
  apply notifyRemainingInactiveNodes_unique
  apply findAndUpdateNode_unique
  exact UniqueRanks.mono h fun _ hn => mem_extractSubtree_remaining hn

theorem removeNode_unique (rank epoch : Int) (index : Nat) : UniqueRanks (c.removeNode rank epoch index).nodes := by
  simp only [removeNode]
  split
  · exact UniqueRanks.mono h fun _ hn => ((OrderedSet.mem_erase_iff _).mp hn).1
  · exact h

end sessions

section scheduler

open LocalScheduler

variable {s s' : LocalScheduler}

def UniqueSessions (s : LocalScheduler) : Prop := ∀ side c, s.sessions side = some c → UniqueRanks c.nodes

theorem UniqueSessions.congr (h : UniqueSessions s) (heq : s'.sessions = s.sessions) : UniqueSessions s' := by
  intro side c hc
  rw [heq] at hc
  exact h side c hc

theorem UniqueSessions.setSession (h : UniqueSessions s) (side : Side) {c : ChildInterface} (hc : UniqueRanks c.nodes) :
    UniqueSessions (s.setSession side c) := by
  intro side' d hd
  rw [sessions_setSession] at hd
  split at hd
  · obtain rfl := Option.some.inj hd
    exact hc
  · exact h side' d hd

theorem UniqueSessions.setSession_log (h : UniqueSessions s) (side : Side) {c : ChildInterface}
    (hc : UniqueRanks c.nodes) (actions : List Action) : UniqueSessions ((s.setSession side c).log actions) :=
  (h.setSession side hc).congr rfl

/-- No move brings a rank into a session twice, where sessions are opened without. -/
theorem UniqueSessions.move (h : UniqueSessions s) (hmove : Move UniqueRanks s s') : UniqueSessions s' := by
  cases hmove with
  | outside _ hsessions _ _ => exact fun side c hc => h side c (hsessions side c hc)
  | opens hopened hsessions _ _ =>
      intro side c hc
      obtain rfl := Option.some.inj ((hsessions side).symm.trans hc)
      exact hopened side
  | updates hc epoch volume hasChild =>
      exact h.setSession_log _ (handleBalancingUpdate_unique (h _ _ hc) epoch volume hasChild) _
  | rejects hc epoch lost hasChild suspended =>
      exact h.setSession_log _ (handleRejectionOfPotentialChild_unique (h _ _ hc) epoch lost hasChild suspended) _
  | joins hc source epoch => exact h.setSession_log _ (handleChildJoining_unique (h _ _ hc) source epoch) _
  | returns hc nodes => exact h.setSession _ (uniqueRanks_merge _ _)
  | frees rank epoch index =>
      intro side c hc
      obtain ⟨d, hd, rfl⟩ := Option.map_eq_some_iff.mp hc
      exact removeNode_unique (h side d hd) rank epoch index

theorem openedBy_unique {update : JobSchedulingUpdate} (h : UniqueRanks update.inactiveJobNodes) :
    OpenedBy UniqueRanks update := fun index => UniqueRanks.split h index

theorem resumed_unique : Resumed UniqueRanks := by
  intro update left right heq
  apply openedBy_unique
  rw [heq]
  exact UniqueRanks.cleanUpStatuses (uniqueRanks_merge left right)

/-- Lists that initialize a scheduler hold each rank at most once. Nothing is
asked of the lists that children return. -/
def UniqueCall : Call → Prop
  | .initializeScheduling update _ => UniqueRanks update.inactiveJobNodes
  | .handleInitialize _ update => UniqueRanks update.inactiveJobNodes
  | _ => True

instance : DecidablePred UniqueCall
  | .initializeScheduling update _ => inferInstanceAs (Decidable (update.inactiveJobNodes.toList.map (·.rank)).Nodup)
  | .handleInitialize _ update => inferInstanceAs (Decidable (update.inactiveJobNodes.toList.map (·.rank)).Nodup)
  | .updateBalancing .. | .beginSuspension _ | .handleReturn .. | .handleRejectReactivation .. | .handleChildJoining ..
  | .handleNodeFreed .. | .beginResumptionAsRoot | .resetRole => inferInstanceAs (Decidable True)

theorem UniqueSessions.step (h : UniqueSessions s) {call : Call} (hcall : UniqueCall call)
    (hs' : s.step call = .ok s') : UniqueSessions s' := by
  have hinitial : ∀ update, call.initial = some update → OpenedBy UniqueRanks update := by
    intro update hupdate
    cases call with
    | initializeScheduling | handleInitialize =>
        obtain rfl := Option.some.inj hupdate
        exact openedBy_unique hcall
    | updateBalancing | beginSuspension | handleReturn | handleRejectReactivation | handleChildJoining
    | handleNodeFreed | beginResumptionAsRoot | resetRole => cases hupdate
  exact (step_moves resumed_unique hinitial hs').invariant (fun _ _ hs hmove => hs.move hmove) h

/-- Once the sessions hold each rank at most once they do so in every reachable state. -/
theorem reached_unique {rank jobId parentRank : Int} {index : Nat} {calls : List Call}
    (h : Reaches LocalScheduler.step (fun _ call => UniqueCall call)
      (SchedulerLifeCycle.create rank jobId index parentRank) calls s) : UniqueSessions s := by
  refine Reaches.invariant (P := UniqueSessions) ?_ ?_ h
  · intro side c hc
    cases hc
  · intro s call s' hs hcall hs'
    exact UniqueSessions.step hs hcall hs'

end scheduler

section claim

open LocalScheduler

/-- Merging is a join of sets of keys that is idempotent where each rank occurs
at most once, which is so in all sessions that are ever reached. -/
theorem mergePreferringNewer_joins :
    (∀ A B : InactiveJobNodeList,
      (∀ n ∈ (mergePreferringNewer A B).toList, n ∈ A.toList ++ B.toList ∧
        ∀ m ∈ A.toList ++ B.toList, m.rank = n.rank →
          m.lastEpoch < n.lastEpoch ∨ m.lastEpoch = n.lastEpoch ∧ n.originalIndex ≤ m.originalIndex) ∧
      ∀ m ∈ A.toList ++ B.toList, ∃! n, n ∈ (mergePreferringNewer A B).toList ∧ n.rank = m.rank) ∧
    (∀ A B : InactiveJobNodeList,
      identities (mergePreferringNewer A B) = identities (mergePreferringNewer B A)) ∧
    (∀ A B C : InactiveJobNodeList, identities (mergePreferringNewer (mergePreferringNewer A B) C) =
      identities (mergePreferringNewer A (mergePreferringNewer B C))) ∧
    (∀ A B : InactiveJobNodeList, identities (mergePreferringNewer (mergePreferringNewer A B) B) =
      identities (mergePreferringNewer A B)) ∧
    (∀ A : InactiveJobNodeList, identities (mergePreferringNewer A A) = identities A ↔
      (A.toList.map (·.rank)).Nodup) ∧
    ∀ (rank jobId parentRank : Int) (index : Nat) (calls : List Call) (s : LocalScheduler),
      Reaches LocalScheduler.step (fun _ call => UniqueCall call)
        (SchedulerLifeCycle.create rank jobId index parentRank) calls s →
      ∀ side c, s.sessions side = some c → (c.nodes.toList.map (·.rank)).Nodup := by
  refine ⟨?_, ?_, ?_, ?_, ?_, ?_⟩
  · intro A B
    refine ⟨fun n hn => mem_merge hn, fun m hm => ?_⟩
    obtain ⟨n, hn, hr⟩ := exists_merged hm
    refine ⟨n, ⟨hn, hr⟩, fun n' hn' => ?_⟩
    exact uniqueRanks_iff.mp (uniqueRanks_merge A B) n' hn'.1 n hn (hn'.2.trans hr.symm)
  · intro A B
    rw [identities_merge, identities_merge, join_comm]
  · intro A B C
    simp only [identities_merge]
    exact join_assoc _ _ _
  · intro A B
    simp only [identities_merge]
    exact join_join_right _ _
  · intro A
    rw [identities_merge, join_self, best_eq_self_iff]
    exact unique_identities_iff
  · intro rank jobId parentRank index calls s hreaches side c hc
    exact reached_unique hreaches side c hc

def returningTwice : List Call :=
  [.initializeScheduling { epoch := 0 } (-1), .updateBalancing 1 2 false false, .handleChildJoining 7 1 1,
    .updateBalancing 2 1 true false,
    .handleReturn 7 ((OrderedSet.empty.insert ⟨7, 1, 1, .available⟩).insert ⟨7, 1, 2, .available⟩)]

theorem mergePreferringNewer_joins_returningTwice : ∃ s,
    Reaches LocalScheduler.step (fun _ call => UniqueCall call) (SchedulerLifeCycle.create 0 1 0 (-1)) returningTwice s ∧
      (s.sessions .left).isSome = true ∧
      ∀ side c, s.sessions side = some c → (c.nodes.toList.map (·.rank)).Nodup := by
  have hrun : (returningTwice.foldlM (checked (fun _ call => decide (UniqueCall call)) LocalScheduler.step)
      (SchedulerLifeCycle.create 0 1 0 (-1))).map (fun s => (s.sessions .left).isSome) = some true := by decide +kernel
  obtain ⟨s, hs, hsome⟩ := Option.map_eq_some_iff.mp hrun
  have hreaches : Reaches LocalScheduler.step (fun _ call => UniqueCall call)
      (SchedulerLifeCycle.create 0 1 0 (-1)) returningTwice s :=
    Reaches.of_checked (fun _ _ h => of_decide_eq_true h) hs
  obtain ⟨_, _, _, _, _, hunique⟩ := mergePreferringNewer_joins
  exact ⟨s, hreaches, hsome, hunique _ _ _ _ _ _ hreaches⟩

def indexedTwice : InactiveJobNodeList := (OrderedSet.empty.insert ⟨7, 1, 5, .available⟩).insert ⟨7, 2, 5, .available⟩

/-- A list that holds a rank twice is changed by merging it with itself. -/
theorem mergePreferringNewer_self_indexedTwice :
    ¬identities (mergePreferringNewer indexedTwice indexedTwice) = identities indexedTwice := by decide +kernel

end claim

end Mallob.SessionRanks
