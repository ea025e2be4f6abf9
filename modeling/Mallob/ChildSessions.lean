import Mallob.ChildInterface

namespace Mallob

open InactiveJobNode InactiveJobNodeList

namespace InactiveJobNodeList

def Clean (nodes : InactiveJobNodeList) : Prop := ∀ n ∈ nodes.toList, n.status ≠ .lost

theorem equivalent_iff_fields {a b : InactiveJobNode} : equivalent before a b = true ↔
    a.originalIndex = b.originalIndex ∧ a.lastEpoch = b.lastEpoch ∧ a.rank = b.rank := by
  rw [equivalent_iff_key before_iff]
  simp [key]

theorem mem_setStatuses {nodes : InactiveJobNodeList} {f : InactiveJobNode → Status} {n : InactiveJobNode} :
    n ∈ (setStatuses nodes f).toList ↔ ∃ m ∈ nodes.toList, m.withStatus (f m) = n := List.mem_map

theorem mem_filterDuplicates {nodes : InactiveJobNodeList} {n : InactiveJobNode}
    (h : n ∈ (filterDuplicates nodes).toList) : n ∈ nodes.toList := ((OrderedSet.mem_eraseAll_iff _).mp h).1

theorem mem_mergePreferringNewer {nodes other : InactiveJobNodeList} {n : InactiveJobNode}
    (h : n ∈ (mergePreferringNewer nodes other).toList) : n ∈ nodes.toList ∨ n ∈ other.toList :=
  OrderedSet.mem_of_mem_insertAll (mem_filterDuplicates h)

theorem mem_cleanUpStatuses {nodes : InactiveJobNodeList} {n : InactiveJobNode} :
    n ∈ (cleanUpStatuses nodes).toList ↔ ∃ m ∈ nodes.toList, m.status ≠ .lost ∧ n = m.withStatus .available := by
  rw [cleanUpStatuses, OrderedSet.mem_eraseAll_iff, mem_setStatuses]
  constructor
  · rintro ⟨⟨m, hm, rfl⟩, hkept⟩
    by_cases hlost : m.status = .lost
    · have hself := hkept m (by simp [hm, hlost])
      rw [← Bool.not_eq_true, equivalent_iff_fields] at hself
      exact absurd ⟨rfl, rfl, rfl⟩ hself
    · exact ⟨m, hm, hlost, by simp [hlost]⟩
  · rintro ⟨m, hm, hstatus, rfl⟩
    refine ⟨⟨m, hm, by simp [hstatus]⟩, ?_⟩
    intro x hx
    obtain ⟨hx, hlost⟩ := List.mem_filter.mp hx
    rw [← Bool.not_eq_true, equivalent_iff_fields]
    intro hsame
    have heq : x = m := nodes.eq_of_equivalent hx hm (equivalent_iff_fields.mpr hsame)
    exact hstatus (heq ▸ of_decide_eq_true hlost)

theorem clean_cleanUpStatuses (nodes : InactiveJobNodeList) : Clean (cleanUpStatuses nodes) := by
  intro n hn
  obtain ⟨m, _, _, rfl⟩ := mem_cleanUpStatuses.mp hn
  simp [withStatus]

theorem mem_extractSubtree_remaining {nodes : InactiveJobNodeList} {index : Nat} {excludeRoot : Bool}
    {n : InactiveJobNode} (h : n ∈ (extractSubtree nodes index excludeRoot).2.toList) : n ∈ nodes.toList :=
  ((OrderedSet.mem_eraseAll_iff _).mp h).1

end InactiveJobNodeList

namespace JobSchedulingUpdate

theorem splitNode_cases (index : Nat) (sets : InactiveJobNodeList × InactiveJobNodeList) (node : InactiveJobNode) :
    splitNode index sets node = (sets.1.insert node, sets.2) ∨
      splitNode index sets node = (sets.1, sets.2.insert node) := by
  simp only [splitNode]
  split
  · split
    · exact Or.inl rfl
    · exact Or.inr rfl
  · split
    · exact Or.inr rfl
    · exact Or.inl rfl

theorem mem_splitNode {index : Nat} {sets : InactiveJobNodeList × InactiveJobNodeList} {node n : InactiveJobNode}
    (h : n ∈ (splitNode index sets node).1.toList ∨ n ∈ (splitNode index sets node).2.toList) :
    n = node ∨ n ∈ sets.1.toList ∨ n ∈ sets.2.toList := by
  rcases splitNode_cases index sets node with heq | heq
  · rw [heq] at h
    rcases h with hl | hr
    · exact (OrderedSet.mem_of_mem_insert hl).imp_right Or.inl
    · exact Or.inr (Or.inr hr)
  · rw [heq] at h
    rcases h with hl | hr
    · exact Or.inr (Or.inl hl)
    · exact (OrderedSet.mem_of_mem_insert hr).imp_right Or.inr

theorem mem_foldl_splitNode {index : Nat} {n : InactiveJobNode} (xs : List InactiveJobNode)
    (sets : InactiveJobNodeList × InactiveJobNodeList)
    (h : n ∈ (xs.foldl (splitNode index) sets).1.toList ∨ n ∈ (xs.foldl (splitNode index) sets).2.toList) :
    n ∈ xs ∨ n ∈ sets.1.toList ∨ n ∈ sets.2.toList := by
  induction xs generalizing sets with
  | nil => exact Or.inr h
  | cons x xs ih =>
      rcases ih (splitNode index sets x) h with hxs | hsets
      · exact Or.inl (List.mem_cons_of_mem x hxs)
      · rcases mem_splitNode hsets with rfl | hold
        · exact Or.inl (by simp)
        · exact Or.inr hold

theorem mem_split {update : JobSchedulingUpdate} {index : Nat} {n : InactiveJobNode}
    (h : n ∈ (update.split index).1.toList ∨ n ∈ (update.split index).2.toList) :
    n ∈ update.inactiveJobNodes.toList := by
  rcases mem_foldl_splitNode _ _ h with hmem | hempty | hempty
  · exact hmem
  · cases hempty
  · cases hempty

end JobSchedulingUpdate

def Action.inSession : Action → Bool
  | .returnNodes _ _ => false
  | .openSessions => false
  | _ => true

namespace ChildInterface

def LostAtIndex (c : ChildInterface) : Prop := ∀ n ∈ c.nodes.toList, n.status = .lost → n.originalIndex = c.childIndex

structure Kept (c c' : ChildInterface) : Prop where
  childIndex : c'.childIndex = c.childIndex
  childHasNodes : c'.childHasNodes = c.childHasNodes
  lostAtIndex : c.LostAtIndex → c'.LostAtIndex

theorem Kept.refl (c : ChildInterface) : Kept c c := ⟨rfl, rfl, id⟩

theorem Kept.trans {c d e : ChildInterface} (h : Kept c d) (h' : Kept d e) : Kept c e :=
  ⟨h'.childIndex.trans h.childIndex, h'.childHasNodes.trans h.childHasNodes, h'.lostAtIndex ∘ h.lostAtIndex⟩

theorem LostAtIndex.setStatuses {c : ChildInterface} (h : c.LostAtIndex) {f : InactiveJobNode → Status}
    (hf : ∀ n, f n = .lost → n.status = .lost) :
    ∀ n ∈ (InactiveJobNodeList.setStatuses c.nodes f).toList, n.status = .lost → n.originalIndex = c.childIndex := by
  intro n hn hlost
  obtain ⟨m, hm, rfl⟩ := mem_setStatuses.mp hn
  exact h m hm (hf m hlost)

theorem notifyRemainingInactiveNodes_kept (c : ChildInterface) (particularIndex : Option Nat) :
    Kept c (c.notifyRemainingInactiveNodes particularIndex).1 := by
  refine ⟨rfl, rfl, fun h => h.setStatuses ?_⟩
  intro n hn
  split at hn
  · cases hn
  · exact hn

theorem notifyRemainingInactiveNodes_inSession (c : ChildInterface) (particularIndex : Option Nat) :
    ∀ a ∈ (c.notifyRemainingInactiveNodes particularIndex).2, a.inSession = true := by
  intro a ha
  obtain ⟨n, _, rfl⟩ := List.mem_map.mp ha
  rfl

theorem recruitChild_kept (c : ChildInterface) : Kept c c.recruitChild.1 := by
  rw [recruitChild]
  cases c.candidate with
  | some node => exact ⟨rfl, rfl, id⟩
  | none => exact c.notifyRemainingInactiveNodes_kept _

theorem recruitChild_childRank (c : ChildInterface) :
    c.recruitChild.1.childRank = (c.candidate.map (·.rank)).getD c.childRank := by
  rw [recruitChild]
  cases c.candidate with
  | some node => rfl
  | none => rfl

theorem recruitChild_inSession (c : ChildInterface) : ∀ a ∈ c.recruitChild.2.1, a.inSession = true := by
  rw [recruitChild]
  cases c.candidate with
  | some node => simp
  | none => exact c.notifyRemainingInactiveNodes_inSession _

theorem renewedStatus_lost {newVolume : Int} {n : InactiveJobNode} (h : renewedStatus newVolume n = .lost) :
    n.status = .lost := by
  cases hstatus : n.status with
  | available => by_cases hge : newVolume ≤ n.originalIndex <;> simp [renewedStatus, hstatus, hge] at h
  | busy => by_cases hge : newVolume ≤ n.originalIndex <;> simp [renewedStatus, hstatus, hge] at h
  | lost => rfl

theorem renew_kept (c : ChildInterface) (newEpoch newVolume : Int) : Kept c (c.renew newEpoch newVolume) :=
  ⟨rfl, rfl, fun h => h.setStatuses fun _ => renewedStatus_lost⟩

def queriedByUpdate (c : ChildInterface) (newEpoch newVolume : Int) (hasChild : Bool) : Option Int :=
  if newEpoch > c.epoch ∧ hasChild = false ∧ c.childIndex < newVolume then
    (c.renew newEpoch newVolume).candidate.map (·.rank)
  else none

theorem handleBalancingUpdate_cases (c : ChildInterface) (newEpoch newVolume : Int) (hasChild : Bool) :
    c.handleBalancingUpdate newEpoch newVolume hasChild = (c, [], .doNothing) ∧
        c.queriedByUpdate newEpoch newVolume hasChild = none ∨
      c.handleBalancingUpdate newEpoch newVolume hasChild = (c.renew newEpoch newVolume).recruitChild ∧
        c.queriedByUpdate newEpoch newVolume hasChild = (c.renew newEpoch newVolume).candidate.map (·.rank) ∨
      c.handleBalancingUpdate newEpoch newVolume hasChild =
          (((c.renew newEpoch newVolume).notifyRemainingInactiveNodes none).1,
            ((c.renew newEpoch newVolume).notifyRemainingInactiveNodes none).2, .doNothing) ∧
        c.queriedByUpdate newEpoch newVolume hasChild = none := by
  by_cases hold : newEpoch ≤ c.epoch
  · exact Or.inl ⟨by simp [handleBalancingUpdate, hold], by simp [queriedByUpdate, Int.not_lt.mpr hold]⟩
  · by_cases hrecruit : hasChild = false ∧ (c.childIndex : Int) < newVolume
    · refine Or.inr (Or.inl ⟨?_, ?_⟩)
      · simp [handleBalancingUpdate, hold, wantsChild, renew, hrecruit]
      · simp [queriedByUpdate, Int.not_le.mp hold, hrecruit]
    · refine Or.inr (Or.inr ⟨?_, ?_⟩)
      · have hno : (!hasChild && (c.renew newEpoch newVolume).wantsChild) = false := by
          cases hasChild with
          | true => rfl
          | false =>
              have hge : newVolume ≤ c.childIndex := by simpa using hrecruit
              exact decide_eq_false (Int.not_lt.mpr hge)
        simp [handleBalancingUpdate, hold, hno]
      · simp [queriedByUpdate, hrecruit]

theorem handleBalancingUpdate_kept (c : ChildInterface) (newEpoch newVolume : Int) (hasChild : Bool) :
    Kept c (c.handleBalancingUpdate newEpoch newVolume hasChild).1 := by
  rcases c.handleBalancingUpdate_cases newEpoch newVolume hasChild with ⟨h, _⟩ | ⟨h, _⟩ | ⟨h, _⟩
  · rw [h]
    exact Kept.refl c
  · rw [h]
    exact (c.renew_kept newEpoch newVolume).trans (recruitChild_kept _)
  · rw [h]
    exact (c.renew_kept newEpoch newVolume).trans (notifyRemainingInactiveNodes_kept _ _)

theorem handleBalancingUpdate_childRank (c : ChildInterface) (newEpoch newVolume : Int) (hasChild : Bool) :
    (c.handleBalancingUpdate newEpoch newVolume hasChild).1.childRank =
      (c.queriedByUpdate newEpoch newVolume hasChild).getD c.childRank := by
  rcases c.handleBalancingUpdate_cases newEpoch newVolume hasChild with ⟨h, hq⟩ | ⟨h, hq⟩ | ⟨h, hq⟩
  · rw [h, hq]
    rfl
  · rw [h, hq, recruitChild_childRank]
    rfl
  · rw [h, hq]
    rfl

theorem handleBalancingUpdate_inSession (c : ChildInterface) (newEpoch newVolume : Int) (hasChild : Bool) :
    ∀ a ∈ (c.handleBalancingUpdate newEpoch newVolume hasChild).2.1, a.inSession = true := by
  rcases c.handleBalancingUpdate_cases newEpoch newVolume hasChild with ⟨h, _⟩ | ⟨h, _⟩ | ⟨h, _⟩
  · rw [h]
    simp
  · rw [h]
    exact recruitChild_inSession _
  · rw [h]
    exact notifyRemainingInactiveNodes_inSession _ _

theorem findNode_originalIndex {c : ChildInterface} {rank : Int} {index : Nat} {n : InactiveJobNode}
    (h : c.findNode rank index = some n) : n.originalIndex = index := by
  have hmem := List.mem_of_find?_eq_some h
  simpa using List.mem_takeWhile_imp hmem

theorem findNode_some {c : ChildInterface} {rank : Int} {index : Nat} {n : InactiveJobNode}
    (h : c.findNode rank index = some n) : n ∈ c.nodes.toList ∧ n.rank = rank := by
  have hmem := List.mem_of_find?_eq_some h
  have hrank := List.find?_some h
  refine ⟨?_, by simpa using hrank⟩
  exact (List.dropWhile_sublist _).subset ((List.takeWhile_sublist _).subset hmem)

theorem findAndUpdateNode_kept (c : ChildInterface) (rank : Int) (epoch : Int) (status : Status) :
    Kept c (c.findAndUpdateNode rank c.childIndex epoch status) := by
  rw [findAndUpdateNode]
  cases hfind : c.findNode rank c.childIndex with
  | none => exact Kept.refl c
  | some n =>
      refine ⟨rfl, rfl, ?_⟩
      intro h m hm hlost
      rcases OrderedSet.mem_of_mem_insert hm with rfl | hm
      · have hindex : n.originalIndex = c.childIndex := findNode_originalIndex hfind
        exact hindex
      · exact h m ((OrderedSet.mem_erase_iff _).mp hm).1 hlost

theorem findAndUpdateNode_childRank (c : ChildInterface) (rank : Int) (index : Nat) (epoch : Int) (status : Status) :
    (c.findAndUpdateNode rank index epoch status).childRank = c.childRank := by
  rw [findAndUpdateNode]
  cases c.findNode rank index with
  | none => rfl
  | some n => rfl

def rejected (c : ChildInterface) (epoch : Int) (lost : Bool) : ChildInterface :=
  c.findAndUpdateNode c.childRank c.childIndex epoch (if lost then .lost else .busy)

def queriedByRejection (c : ChildInterface) (epoch : Int) (lost hasChild suspended : Bool) : Option Int :=
  if !hasChild && !suspended && (c.rejected epoch lost).wantsChild then
    (c.rejected epoch lost).candidate.map (·.rank)
  else none

section Rejection

variable (c : ChildInterface) (epoch : Int) (lost hasChild suspended : Bool)

theorem rejected_kept : Kept c (c.rejected epoch lost) := c.findAndUpdateNode_kept _ _ _

theorem handleRejectionOfPotentialChild_eq : c.handleRejectionOfPotentialChild epoch lost hasChild suspended =
    if !hasChild && !suspended && (c.rejected epoch lost).wantsChild then (c.rejected epoch lost).recruitChild
    else (c.rejected epoch lost, [], .doNothing) := rfl

theorem handleRejectionOfPotentialChild_kept :
    Kept c (c.handleRejectionOfPotentialChild epoch lost hasChild suspended).1 := by
  rw [handleRejectionOfPotentialChild_eq]
  split
  · exact (c.rejected_kept epoch lost).trans (recruitChild_kept _)
  · exact c.rejected_kept epoch lost

theorem handleRejectionOfPotentialChild_childRank :
    (c.handleRejectionOfPotentialChild epoch lost hasChild suspended).1.childRank =
      (c.queriedByRejection epoch lost hasChild suspended).getD c.childRank := by
  have hrank : (c.rejected epoch lost).childRank = c.childRank := c.findAndUpdateNode_childRank _ _ _ _
  rw [handleRejectionOfPotentialChild_eq, queriedByRejection]
  split
  · rw [recruitChild_childRank, hrank]
  · exact hrank

theorem handleRejectionOfPotentialChild_inSession :
    ∀ a ∈ (c.handleRejectionOfPotentialChild epoch lost hasChild suspended).2.1, a.inSession = true := by
  rw [handleRejectionOfPotentialChild_eq]
  split
  · exact recruitChild_inSession _
  · simp

end Rejection

section Joining

variable (c : ChildInterface) (source epoch : Int)

def joined : ChildInterface :=
  { c with childRank := source, childHasNodes := true, nodes := (extractSubtree c.nodes c.childIndex true).2 }

theorem joined_lostAtIndex (h : c.LostAtIndex) : (c.joined source).LostAtIndex :=
  fun n hn => h n (mem_extractSubtree_remaining hn)

theorem handleChildJoining_fst : (c.handleChildJoining source epoch).1 =
    (((c.joined source).findAndUpdateNode source c.childIndex epoch .busy).notifyRemainingInactiveNodes none).1 := rfl

theorem handleChildJoining_kept : Kept (c.joined source) (c.handleChildJoining source epoch).1 :=
  ((c.joined source).findAndUpdateNode_kept source epoch .busy).trans (notifyRemainingInactiveNodes_kept _ _)

theorem handleChildJoining_childRank : (c.handleChildJoining source epoch).1.childRank = source :=
  (c.joined source).findAndUpdateNode_childRank source c.childIndex epoch .busy

theorem handleChildJoining_inSession : ∀ a ∈ (c.handleChildJoining source epoch).2, a.inSession = true := by
  intro a ha
  rcases List.mem_cons.mp ha with rfl | ha
  · rfl
  · exact notifyRemainingInactiveNodes_inSession _ _ a ha

end Joining

theorem addJobNodesFromSuspendedChild_lostAtIndex {c : ChildInterface} {newNodes : InactiveJobNodeList}
    (h : c.LostAtIndex) (hclean : newNodes.Clean) : (c.addJobNodesFromSuspendedChild newNodes).LostAtIndex := by
  intro n hn hlost
  rcases mem_mergePreferringNewer hn with hn | hn
  · exact h n hn hlost
  · exact absurd hlost (hclean n hn)

theorem removeNode_kept (c : ChildInterface) (rank epoch : Int) (index : Nat) :
    Kept c (c.removeNode rank epoch index) := by
  simp only [removeNode]
  split
  · exact ⟨rfl, rfl, fun h n hn => h n ((OrderedSet.mem_erase_iff _).mp hn).1⟩
  · exact Kept.refl c

theorem removeNode_childRank (c : ChildInterface) (rank epoch : Int) (index : Nat) :
    (c.removeNode rank epoch index).childRank = c.childRank := by
  simp only [removeNode]
  split
  · rfl
  · rfl

end ChildInterface

end Mallob
