import Mallob.SubtreeRouting

namespace Mallob

open InactiveJobNode InactiveJobNodeList

def Action.answers (epoch : Int) (n : InactiveJobNode) : Action → Bool
  | .directedRequest e index rank => e = epoch ∧ index = n.originalIndex ∧ rank = n.rank
  | .releaseFromWaiting destination _ index e => destination = n.rank ∧ index = n.originalIndex ∧ e = epoch
  | .initializeChildWithNodes _ update => update.inactiveJobNodes.toList.any fun m =>
      m.rank = n.rank ∧ m.originalIndex = n.originalIndex ∧ m.lastEpoch = n.lastEpoch
  | _ => false

def Action.released : Action → Option (Int × Nat)
  | .releaseFromWaiting destination _ index _ => some (destination, index)
  | _ => none

def Action.isDirected : Action → Bool
  | .directedRequest _ _ _ => true
  | _ => false

def Action.isRequest : Action → Bool
  | .directedRequest _ _ _ => true
  | .undirectedRequest _ _ => true
  | _ => false

namespace WaitingNodes

open ChildInterface LocalScheduler SubtreeRouting IndexTree

def slot (n : InactiveJobNode) : Int × Nat := (n.rank, n.originalIndex)

def available (nodes : List InactiveJobNode) : Multiset (Int × Nat) :=
  ((nodes.filter fun n => n.status = .available).map slot : List (Int × Nat))

def released (log : List Action) : Multiset (Int × Nat) := (log.filterMap Action.released : List (Int × Nat))

theorem released_append (log actions : List Action) : released (log ++ actions) = released log + released actions := by
  rw [released, List.filterMap_append, ← Multiset.coe_add]
  rfl

theorem released_request (log : List Action) {a : Action} (ha : a.released = none) :
    released (log ++ [a]) = released log := by
  rw [released, List.filterMap_append, List.filterMap_cons, ha, List.filterMap_nil, List.append_nil]
  rfl

theorem answered_append {log : List Action} {epoch : Int} {n : InactiveJobNode} (actions : List Action)
    (h : ∃ a ∈ log, a.answers epoch n = true) : ∃ a ∈ log ++ actions, a.answers epoch n = true := by
  obtain ⟨a, ha, hanswers⟩ := h
  exact ⟨a, List.mem_append_left _ ha, hanswers⟩

section sessions

variable {c : ChildInterface}

theorem available_le_of_sublist {xs ys : List InactiveJobNode} (h : xs.Sublist ys) : available xs ≤ available ys :=
  Multiset.coe_le.mpr (((h.filter _).map slot).subperm)

theorem available_le_slots (xs : List InactiveJobNode) : available xs ≤ (xs.map slot : List (Int × Nat)) :=
  Multiset.coe_le.mpr ((List.filter_sublist.map slot).subperm)

theorem available_cons (x : InactiveJobNode) (xs : List InactiveJobNode) :
    available (x :: xs) = if x.status = .available then slot x ::ₘ available xs else available xs := by
  by_cases hx : x.status = .available
  · simp [available, hx]
  · simp [available, hx]

/-- What is released is not available afterwards, and everything else is as before. -/
theorem released_add_available (particularIndex : Option Nat) (xs : List InactiveJobNode) :
    (((xs.filter (toRelease particularIndex)).map slot : List (Int × Nat)) : Multiset (Int × Nat)) +
      available (xs.map fun n => n.withStatus (if toRelease particularIndex n then .busy else n.status)) =
      available xs := by
  induction xs with
  | nil => rfl
  | cons x xs ih =>
      rw [List.map_cons, available_cons, available_cons]
      cases hrelease : toRelease particularIndex x with
      | true =>
          have hx : x.status = .available := by
            rw [toRelease, decide_eq_true_eq] at hrelease
            exact hrelease.1
          rw [List.filter_cons_of_pos hrelease, List.map_cons, ← Multiset.cons_coe, Multiset.cons_add, if_pos hx, ← ih]
          simp [withStatus]
      | false =>
          rw [List.filter_cons_of_neg (by simp [hrelease]), ← ih]
          by_cases hx : x.status = .available
          · simp only [hx, withStatus, if_true, slot, Bool.false_eq_true, if_false, Multiset.add_cons]
          · simp only [hx, withStatus, if_false, Bool.false_eq_true]

theorem released_notify (c : ChildInterface) (particularIndex : Option Nat) :
    released (c.notifyRemainingInactiveNodes particularIndex).2 +
      available (c.notifyRemainingInactiveNodes particularIndex).1.nodes.toList = available c.nodes.toList := by
  rw [← released_add_available particularIndex c.nodes.toList]
  congr 1
  rw [released, notifyRemainingInactiveNodes, List.filterMap_map]
  exact congrArg _ (List.filterMap_eq_map ▸ rfl)

theorem toRelease_notify {particularIndex : Option Nat} {n : InactiveJobNode}
    (hn : n ∈ (c.notifyRemainingInactiveNodes particularIndex).1.nodes.toList) :
    toRelease particularIndex n = false := by
  obtain ⟨m, _, rfl⟩ := mem_setStatuses.mp hn
  cases hrelease : toRelease particularIndex m with
  | true => simp [toRelease, withStatus]
  | false => simpa [toRelease, withStatus] using hrelease

theorem mem_notify {particularIndex : Option Nat} {n : InactiveJobNode} (hn : n ∈ c.nodes.toList)
    (hrelease : toRelease particularIndex n = false) :
    n ∈ (c.notifyRemainingInactiveNodes particularIndex).1.nodes.toList := by
  refine mem_setStatuses.mpr ⟨n, hn, ?_⟩
  simp [hrelease, withStatus]

theorem release_of_toRelease {particularIndex : Option Nat} {n : InactiveJobNode} (hn : n ∈ c.nodes.toList)
    (hrelease : toRelease particularIndex n = true) :
    ∃ a ∈ (c.notifyRemainingInactiveNodes particularIndex).2, a.answers c.epoch n = true :=
  ⟨_, List.mem_map.mpr ⟨n, List.mem_filter.mpr ⟨hn, hrelease⟩, rfl⟩, by simp [Action.answers]⟩

theorem notify_directed (c : ChildInterface) (particularIndex : Option Nat) :
    (c.notifyRemainingInactiveNodes particularIndex).2.countP Action.isDirected = 0 := by
  rw [List.countP_eq_zero]
  intro a ha
  obtain ⟨n, _, rfl⟩ := List.mem_map.mp ha
  simp [Action.isDirected]

section updates

variable {rank : Int} {index : Nat} {epoch : Int} {status : Status}

theorem filter_insertSorted {x : InactiveJobNode} {p : InactiveJobNode → Bool} (hx : p x = false)
    (xs : List InactiveJobNode) : (OrderedSet.insertSorted before x xs).filter p = xs.filter p := by
  induction xs with
  | nil => simp [OrderedSet.insertSorted, hx]
  | cons y ys ih =>
      rw [OrderedSet.insertSorted]
      split
      · rw [List.filter_cons_of_neg (by simp [hx])]
      · split
        · rw [List.filter_cons, List.filter_cons, ih]
        · rfl

theorem findAndUpdateNode_available (c : ChildInterface) (rank : Int) (index : Nat) (epoch : Int)
    (hstatus : status ≠ .available) :
    available (c.findAndUpdateNode rank index epoch status).nodes.toList ≤ available c.nodes.toList := by
  rw [findAndUpdateNode]
  cases c.findNode rank index with
  | none => exact le_rfl
  | some n =>
      have heq : available ((c.nodes.erase n).insert { n with lastEpoch := epoch, status := status }).toList =
          available (c.nodes.erase n).toList := by
        rw [available, OrderedSet.insert, filter_insertSorted (by simp [hstatus])]
        rfl
      exact heq.trans_le (available_le_of_sublist List.filter_sublist)

/-- An update to another status only takes nodes from the available ones. -/
theorem mem_of_findAndUpdateNode (hstatus : status ≠ .available) {n : InactiveJobNode}
    (hn : n ∈ (c.findAndUpdateNode rank index epoch status).nodes.toList) (havailable : n.status = .available) :
    n ∈ c.nodes.toList := by
  rw [findAndUpdateNode] at hn
  cases hfind : c.findNode rank index with
  | none =>
      rw [hfind] at hn
      exact hn
  | some m =>
      rw [hfind] at hn
      rcases OrderedSet.mem_of_mem_insert hn with rfl | hn
      · exact absurd havailable hstatus
      · exact ((OrderedSet.mem_erase_iff _).mp hn).1

theorem mem_findAndUpdateNode {n : InactiveJobNode} (hn : n ∈ c.nodes.toList)
    (hother : ¬(n.rank = rank ∧ n.originalIndex = index)) :
    n ∈ (c.findAndUpdateNode rank index epoch status).nodes.toList := by
  rw [findAndUpdateNode]
  cases hfind : c.findNode rank index with
  | none => exact hn
  | some m =>
      refine OrderedSet.mem_insert_of_mem _ _ ((OrderedSet.mem_erase_iff _).mpr ⟨hn, ?_⟩)
      rw [← Bool.not_eq_true, equivalent_iff_fields]
      rintro ⟨hindex, _, hrank⟩
      exact hother ⟨hrank.symm.trans (findNode_some hfind).2, hindex.symm.trans (findNode_originalIndex hfind)⟩

theorem findAndUpdateNode_frame (c : ChildInterface) (rank : Int) (index : Nat) (epoch : Int) (status : Status) :
    ∃ nodes, c.findAndUpdateNode rank index epoch status = { c with nodes := nodes } := by
  rw [findAndUpdateNode]
  cases c.findNode rank index with
  | none => exact ⟨c.nodes, rfl⟩
  | some n => exact ⟨_, rfl⟩

end updates

end sessions

/-- What an epoch owes the nodes that were not lost and have a place in the new
volume, and what it has sent. -/
structure Waiting (before : ChildInterface) (newEpoch newVolume : Int) (c : ChildInterface) (log : List Action) :
    Prop where
  epoch : c.epoch = newEpoch
  childIndex : c.childIndex = before.childIndex
  waits : ∀ n ∈ before.nodes.toList, n.status ≠ .lost → n.originalIndex < newVolume →
    n.withStatus .available ∈ c.nodes.toList ∨ ∃ a ∈ log, a.answers newEpoch n = true
  once : released log + available c.nodes.toList ≤ (before.nodes.toList.map slot : List (Int × Nat))
  queries : log.countP Action.isDirected = c.numQueriedJobNodes
  atMost : c.numQueriedJobNodes ≤ 4

/-- The rank that is marked by a rejection was queried, and without a request
no node waits. -/
structure Served (before : ChildInterface) (newEpoch newVolume : Int) (c : ChildInterface) (log : List Action) :
    Prop extends Waiting before newEpoch newVolume c log where
  queried : ∀ n ∈ c.nodes.toList, n.status = .available → n.originalIndex = c.childIndex → n.rank = c.childRank →
    Action.directedRequest newEpoch c.childIndex c.childRank ∈ log
  quiet : log.any Action.isRequest = false → ∀ n ∈ c.nodes.toList, n.status ≠ .available

section epoch

variable {before c : ChildInterface} {newEpoch newVolume : Int} {log : List Action}

theorem Waiting.notify (h : Waiting before newEpoch newVolume c log) (particularIndex : Option Nat) :
    Waiting before newEpoch newVolume (c.notifyRemainingInactiveNodes particularIndex).1
      (log ++ (c.notifyRemainingInactiveNodes particularIndex).2) where
  epoch := h.epoch
  childIndex := h.childIndex
  waits := by
    intro n hn hlost hindex
    rcases h.waits n hn hlost hindex with hwaits | hanswers
    · cases hrelease : toRelease particularIndex (n.withStatus .available) with
      | true =>
          obtain ⟨a, ha, hanswers⟩ := release_of_toRelease hwaits hrelease
          rw [h.epoch] at hanswers
          exact Or.inr ⟨a, List.mem_append_right _ ha, hanswers⟩
      | false => exact Or.inl (mem_notify hwaits hrelease)
    · exact Or.inr (answered_append _ hanswers)
  once := by
    rw [released_append, add_assoc, released_notify]
    exact h.once
  queries := by
    rw [List.countP_append, notify_directed]
    exact h.queries
  atMost := h.atMost

def handled (log : List Action) (result : ChildInterface × List Action × MsgDirective) :
    ChildInterface × List Action := (result.1, log ++ (result.2.1 ++ applyDirective result.1 result.2.2))

theorem Waiting.recruitChild (h : Waiting before newEpoch newVolume c log) :
    Served before newEpoch newVolume (handled log c.recruitChild).1 (handled log c.recruitChild).2 := by
  rw [ChildInterface.recruitChild, handled]
  cases hcandidate : c.candidate with
  | some node =>
      have hfew : c.numQueriedJobNodes < 4 := by
        by_contra hmany
        rw [candidate, if_neg hmany] at hcandidate
        cases hcandidate
      simp only [applyDirective, List.nil_append]
      refine ⟨⟨h.epoch, h.childIndex, ?_, ?_, ?_, hfew⟩, ?_, ?_⟩
      · exact fun n hn hlost hindex => (h.waits n hn hlost hindex).imp_right (answered_append _)
      · rw [released_request log rfl]
        exact h.once
      · rw [List.countP_append, h.queries]
        simp [Action.isDirected]
      · intro n _ _ _ _
        rw [← h.epoch]
        simp
      · intro hnone
        simp [Action.isRequest] at hnone
  | none =>
      have hnotified := h.notify (some c.childIndex)
      simp only [applyDirective, ← List.append_assoc]
      refine ⟨⟨hnotified.epoch, hnotified.childIndex, ?_, ?_, ?_, hnotified.atMost⟩, ?_, ?_⟩
      · exact fun n hn hlost hindex => (hnotified.waits n hn hlost hindex).imp_right (answered_append _)
      · rw [released_request _ rfl]
        exact hnotified.once
      · rw [List.countP_append, hnotified.queries]
        simp [Action.isDirected]
      · intro n hn havailable hindex _
        have hno := toRelease_notify hn
        have hindex : n.originalIndex = c.childIndex := hindex
        simp [toRelease, havailable, hindex] at hno
      · intro hnone
        simp [Action.isRequest] at hnone

/-- The node that is marked was queried, so that it need not be available any more. -/
theorem Served.rejected (h : Served before newEpoch newVolume c log) (epoch : Int) (lost : Bool) :
    Served before newEpoch newVolume (c.rejected epoch lost) log := by
  have hstatus : (if lost then Status.lost else .busy) ≠ .available := by cases lost <;> simp
  have havailable := findAndUpdateNode_available c c.childRank c.childIndex epoch hstatus
  have hback : ∀ {n : InactiveJobNode}, n ∈ (c.rejected epoch lost).nodes.toList → n.status = .available →
      n ∈ c.nodes.toList := fun hn hav => mem_of_findAndUpdateNode hstatus hn hav
  have hmem : ∀ {n : InactiveJobNode}, n ∈ c.nodes.toList → ¬(n.rank = c.childRank ∧ n.originalIndex = c.childIndex) →
      n ∈ (c.rejected epoch lost).nodes.toList := fun hn hother => mem_findAndUpdateNode hn hother
  rw [ChildInterface.rejected] at hback hmem ⊢
  obtain ⟨nodes, heq⟩ := findAndUpdateNode_frame c c.childRank c.childIndex epoch (if lost then .lost else .busy)
  rw [heq] at havailable hback hmem ⊢
  refine ⟨⟨h.epoch, h.childIndex, ?_, ?_, h.queries, h.atMost⟩, ?_, ?_⟩
  · intro n hn hlost hindex
    rcases h.waits n hn hlost hindex with hwaits | hanswers
    · by_cases hmarked : n.rank = c.childRank ∧ n.originalIndex = c.childIndex
      · refine Or.inr ⟨_, h.queried _ hwaits rfl hmarked.2 hmarked.1, ?_⟩
        simp [Action.answers, hmarked]
      · exact Or.inl (hmem hwaits hmarked)
    · exact Or.inr hanswers
  · exact (add_le_add_right havailable _).trans h.once
  · exact fun n hn hav hindex hrank => h.queried n (hback hn hav) hav hindex hrank
  · exact fun hnone n hn hav => h.quiet hnone n (hback hn hav) hav

def reject (s : ChildInterface × List Action) (r : Int × Bool) : ChildInterface × List Action :=
  handled s.2 (s.1.handleRejectionOfPotentialChild r.1 r.2 false false)

theorem Served.reject (h : Served before newEpoch newVolume c log) (r : Int × Bool) :
    Served before newEpoch newVolume (WaitingNodes.reject (c, log) r).1 (WaitingNodes.reject (c, log) r).2 := by
  have hrejected := h.rejected r.1 r.2
  rw [WaitingNodes.reject, handleRejectionOfPotentialChild_eq]
  split
  · exact hrejected.toWaiting.recruitChild
  · simpa [handled, applyDirective] using hrejected

def recruiting (c : ChildInterface) (newEpoch newVolume : Int) (hasChild : Bool) (rejections : List (Int × Bool)) :
    ChildInterface × List Action :=
  rejections.foldl reject (handled [] (c.handleBalancingUpdate newEpoch newVolume hasChild))

theorem renew_waiting (c : ChildInterface) (newEpoch newVolume : Int) :
    Waiting c newEpoch newVolume (c.renew newEpoch newVolume) [] where
  epoch := rfl
  childIndex := rfl
  waits := by
    intro n hn hlost hindex
    refine Or.inl (mem_setStatuses.mpr ⟨n, hn, ?_⟩)
    have hrenewed : renewedStatus newVolume n = .available := by
      have hplace : ¬(n.originalIndex : Int) ≥ newVolume := not_le.mpr hindex
      cases hstatus : n.status with
      | lost => exact absurd hstatus hlost
      | available | busy => simp [renewedStatus, hstatus, hplace]
    rw [hrenewed]
  once := by
    have hslots : (c.renew newEpoch newVolume).nodes.toList.map slot = c.nodes.toList.map slot :=
      (List.map_map ..).trans rfl
    rw [← hslots]
    exact (zero_add _).trans_le (available_le_slots _)
  queries := rfl
  atMost := Nat.zero_le 4

theorem handleBalancingUpdate_served (h : c.epoch < newEpoch) (hasChild : Bool) :
    Served c newEpoch newVolume (handled [] (c.handleBalancingUpdate newEpoch newVolume hasChild)).1
      (handled [] (c.handleBalancingUpdate newEpoch newVolume hasChild)).2 := by
  have hrenewed := renew_waiting c newEpoch newVolume
  simp only [handleBalancingUpdate, not_le.mpr h, if_false]
  split
  · exact hrenewed.recruitChild
  · have hnotified := hrenewed.notify none
    have hnone : ∀ n ∈ ((c.renew newEpoch newVolume).notifyRemainingInactiveNodes none).1.nodes.toList,
        n.status ≠ .available := by
      intro n hn hav
      have hno := toRelease_notify hn
      simp [toRelease, hav] at hno
    simp only [handled, applyDirective, List.append_nil]
    exact ⟨hnotified, fun n hn hav _ _ => absurd hav (hnone n hn), fun _ => hnone⟩

theorem recruiting_served (h : c.epoch < newEpoch) (hasChild : Bool) (rejections : List (Int × Bool)) :
    Served c newEpoch newVolume (recruiting c newEpoch newVolume hasChild rejections).1
      (recruiting c newEpoch newVolume hasChild rejections).2 := by
  rw [recruiting]
  induction rejections using List.reverseRecOn with
  | nil => exact handleBalancingUpdate_served h hasChild
  | append_singleton rejections r ih =>
      rw [List.foldl_append]
      exact ih.reject r

def epochOf (c : ChildInterface) (newEpoch newVolume : Int) (hasChild : Bool) (rejections : List (Int × Bool))
    (source epoch : Int) : ChildInterface × List Action :=
  let (session, log) := recruiting c newEpoch newVolume hasChild rejections
  if log.any Action.isRequest then
    ((session.handleChildJoining source epoch).1, log ++ (session.handleChildJoining source epoch).2)
  else (session, log)

/-- When a child joins, the nodes below it go there, its own one is marked and
all others are released. -/
theorem Waiting.join (h : Waiting before newEpoch newVolume c log) (source epoch : Int) :
    (∀ n ∈ before.nodes.toList, n.status ≠ .lost → n.originalIndex < newVolume →
      (∃ a ∈ log ++ (c.handleChildJoining source epoch).2, a.answers newEpoch n = true) ∨
        n.rank = source ∧ n.originalIndex = before.childIndex) ∧
    released (log ++ (c.handleChildJoining source epoch).2) +
      available (c.handleChildJoining source epoch).1.nodes.toList ≤ (before.nodes.toList.map slot : List (Int × Nat)) ∧
    (log ++ (c.handleChildJoining source epoch).2).countP Action.isDirected ≤ 4 ∧
    ∀ n ∈ (c.handleChildJoining source epoch).1.nodes.toList, n.status ≠ .available := by
  have hsent : (c.handleChildJoining source epoch).2 = .initializeChildWithNodes source (joiningUpdate c epoch) ::
      (((c.joined source).findAndUpdateNode source c.childIndex epoch .busy).notifyRemainingInactiveNodes none).2 := rfl
  have hmarked : ∀ {n : InactiveJobNode}, n ∈ (extractSubtree c.nodes c.childIndex true).2.toList →
      ¬(n.rank = source ∧ n.originalIndex = c.childIndex) →
      n ∈ ((c.joined source).findAndUpdateNode source c.childIndex epoch .busy).nodes.toList :=
    fun hn hother => mem_findAndUpdateNode (c := c.joined source) hn hother
  have havailable := findAndUpdateNode_available (c.joined source) source c.childIndex epoch
    (show Status.busy ≠ .available by decide)
  obtain ⟨nodes, heq⟩ := findAndUpdateNode_frame (c.joined source) source c.childIndex epoch .busy
  rw [hsent, handleChildJoining_fst]
  generalize (c.joined source).findAndUpdateNode source c.childIndex epoch .busy = d at *
  have hepoch : d.epoch = newEpoch := by
    rw [heq]
    exact h.epoch
  refine ⟨?_, ?_, ?_, ?_⟩
  · intro n hn hlost hindex
    rcases h.waits n hn hlost hindex with hwaits | hanswers
    · by_cases hbelow : StrictlyBelow c.childIndex n.originalIndex
      · refine Or.inl ⟨_, List.mem_append_right _ List.mem_cons_self, ?_⟩
        have hhanded : n.withStatus .available ∈ (joiningUpdate c epoch).inactiveJobNodes.toList :=
          mem_cleanUpStatuses.mpr ⟨_, mem_extractSubtree.1.mpr ⟨hwaits, hbelow⟩, by simp [withStatus], rfl⟩
        exact List.any_eq_true.mpr ⟨_, hhanded, by simp [withStatus]⟩
      · have hremains : n.withStatus .available ∈ (extractSubtree c.nodes c.childIndex true).2.toList :=
          mem_extractSubtree.2.mpr ⟨hwaits, hbelow⟩
        by_cases hown : n.rank = source ∧ n.originalIndex = c.childIndex
        · exact Or.inr ⟨hown.1, hown.2.trans h.childIndex⟩
        · have hrelease : toRelease none (n.withStatus .available) = true := by simp [toRelease, withStatus]
          obtain ⟨a, ha, hanswers⟩ := release_of_toRelease (hmarked hremains hown) hrelease
          rw [hepoch] at hanswers
          exact Or.inl ⟨a, List.mem_append_right _ (List.mem_cons_of_mem _ ha), hanswers⟩
    · exact Or.inl (answered_append _ hanswers)
  · have hremaining : available d.nodes.toList ≤ available c.nodes.toList :=
      havailable.trans (available_le_of_sublist (OrderedSet.eraseAll_sublist c.nodes _))
    have hinit : ∀ actions, released (.initializeChildWithNodes source (joiningUpdate c epoch) :: actions) =
        released actions := fun _ => rfl
    rw [released_append, hinit, add_assoc, released_notify]
    exact (add_le_add_right hremaining _).trans h.once
  · have hnone : (d.notifyRemainingInactiveNodes none).2.countP Action.isDirected = 0 := notify_directed d none
    rw [List.countP_append, List.countP_cons_of_neg (by simp [Action.isDirected]), hnone, h.queries]
    exact h.atMost
  · intro n hn hav
    have hno := toRelease_notify hn
    simp [toRelease, hav] at hno

/-- Every node that may be wanted is queried, released or handed over, unless
it is the one of the rank that joins; each is released once at most, and none
is left waiting. -/
theorem waiting_nodes_answered (c : ChildInterface) {newEpoch : Int} (h : c.epoch < newEpoch) (newVolume : Int)
    (hasChild : Bool) (rejections : List (Int × Bool)) (source epoch : Int) :
    let last := epochOf c newEpoch newVolume hasChild rejections source epoch
    (∀ n ∈ c.nodes.toList, n.status ≠ .lost → n.originalIndex < newVolume →
      (∃ a ∈ last.2, a.answers newEpoch n = true) ∨
        last.2.any Action.isRequest = true ∧ n.rank = source ∧ n.originalIndex = c.childIndex) ∧
    released last.2 ≤ (c.nodes.toList.map slot : List (Int × Nat)) ∧
    last.2.countP Action.isDirected ≤ 4 ∧
    ∀ n ∈ last.1.nodes.toList, n.status ≠ .available := by
  have hserved := @recruiting_served c newEpoch newVolume h hasChild rejections
  rw [epochOf]
  generalize recruiting c newEpoch newVolume hasChild rejections = s at *
  cases hrequest : s.2.any Action.isRequest with
  | true =>
      obtain ⟨hanswered, honce, hdirected, hnone⟩ := hserved.toWaiting.join source epoch
      simp only [hrequest, if_true]
      refine ⟨fun n hn hlost hindex => ?_, (Multiset.le_add_right _ _).trans honce, hdirected, hnone⟩
      refine (hanswered n hn hlost hindex).imp_right fun hown => ⟨?_, hown⟩
      rw [List.any_append, hrequest, Bool.true_or]
  | false =>
      simp only [hrequest, Bool.false_eq_true, if_false, false_and, or_false]
      refine ⟨fun n hn hlost hindex => ?_, (Multiset.le_add_right _ _).trans hserved.once, ?_, hserved.quiet hrequest⟩
      · rcases hserved.waits n hn hlost hindex with hwaits | hanswers
        · exact absurd rfl (hserved.quiet hrequest _ hwaits)
        · exact hanswers
      · rw [hserved.queries]
        exact hserved.atMost

def twoCandidates : ChildInterface :=
  { jobId := 1, nodes := (OrderedSet.empty.insert ⟨7, 1, 0, .available⟩).insert ⟨8, 1, 0, .available⟩, childIndex := 1 }

theorem waiting_nodes_answered_two_candidates :
    (epochOf twoCandidates 1 2 false [(1, false)] 9 1).2.countP Action.isDirected ≤ 4 ∧
      ∀ n ∈ (epochOf twoCandidates 1 2 false [(1, false)] 9 1).1.nodes.toList, n.status ≠ .available := by
  obtain ⟨_, _, hdirected, hnone⟩ := waiting_nodes_answered twoCandidates (show twoCandidates.epoch < 1 by decide) 2 false
    [(1, false)] 9 1
  exact ⟨hdirected, hnone⟩

/-- The node of 8 is neither queried nor released nor handed over when 8 itself joins. -/
theorem joining_node_unanswered : ∃ n ∈ twoCandidates.nodes.toList, n.status ≠ .lost ∧ (n.originalIndex : Int) < 2 ∧
    ¬∃ a ∈ (epochOf twoCandidates 1 2 false [] 8 1).2, a.answers 1 n = true := by
  refine ⟨⟨8, 1, 0, .available⟩, by decide, by decide, by decide, ?_⟩
  have hnone : (epochOf twoCandidates 1 2 false [] 8 1).2.any (Action.answers 1 ⟨8, 1, 0, .available⟩) = false := by
    decide +kernel
  rw [← List.any_eq_true, hnone]
  exact Bool.false_ne_true

end epoch

end WaitingNodes

end Mallob
