import Mallob.SchedulerLifeCycle
import Mallob.SessionMoves

namespace Mallob

open InactiveJobNode InactiveJobNodeList Runs

/-- The rank that was addressed last for a child index: by a directed request,
or as the child that joined. -/
def Action.addressee (index : Nat) (rank : Int) : Action → Int
  | .directedRequest _ i queried => if i = index then queried else rank
  | .initializeChildWithNodes destination update => if update.destinationIndex = index then destination else rank
  | .openSessions => -1
  | .releaseFromWaiting _ _ _ _ | .sendBackNodes _ _ | .returnNodes _ _ | .undirectedRequest _ _ => rank

def Action.release : Action → Bool
  | .releaseFromWaiting _ _ _ _ => true
  | _ => false

namespace ChildInterface

structure Answers (c : ChildInterface) (result : ChildInterface × List Action × MsgDirective) : Prop where
  childIndex : result.1.childIndex = c.childIndex
  releases : ∀ a ∈ result.2.1, a.release = true
  childRank : result.2.2 ≠ .emitDirectedRequest → result.1.childRank = c.childRank

theorem notifyRemainingInactiveNodes_releases (c : ChildInterface) (particularIndex : Option Nat) :
    ∀ a ∈ (c.notifyRemainingInactiveNodes particularIndex).2, a.release = true := by
  intro a ha
  obtain ⟨n, _, rfl⟩ := List.mem_map.mp ha
  rfl

theorem recruitChild_answers (c : ChildInterface) : Answers c c.recruitChild := by
  rw [recruitChild]
  cases c.candidate with
  | some node => exact ⟨rfl, by simp, fun h => absurd rfl h⟩
  | none => exact ⟨rfl, c.notifyRemainingInactiveNodes_releases _, fun _ => rfl⟩

theorem Answers.of_eq {c d : ChildInterface} {result : ChildInterface × List Action × MsgDirective}
    (h : Answers d result) (hindex : d.childIndex = c.childIndex) (hrank : d.childRank = c.childRank) :
    Answers c result :=
  ⟨h.childIndex.trans hindex, h.releases, fun hno => (h.childRank hno).trans hrank⟩

theorem handleBalancingUpdate_answers (c : ChildInterface) (newEpoch newVolume : Int) (hasChild : Bool) :
    Answers c (c.handleBalancingUpdate newEpoch newVolume hasChild) := by
  rcases c.handleBalancingUpdate_cases newEpoch newVolume hasChild with ⟨h, _⟩ | ⟨h, _⟩ | ⟨h, _⟩
  · rw [h]
    exact ⟨rfl, by simp, fun _ => rfl⟩
  · rw [h]
    exact (recruitChild_answers _).of_eq rfl rfl
  · rw [h]
    exact ⟨rfl, notifyRemainingInactiveNodes_releases _ _, fun _ => rfl⟩

theorem handleRejectionOfPotentialChild_answers (c : ChildInterface) (epoch : Int) (lost hasChild suspended : Bool) :
    Answers c (c.handleRejectionOfPotentialChild epoch lost hasChild suspended) := by
  have hindex := (c.rejected_kept epoch lost).childIndex
  have hrank : (c.rejected epoch lost).childRank = c.childRank := c.findAndUpdateNode_childRank _ _ _ _
  rw [handleRejectionOfPotentialChild_eq]
  split
  · exact (recruitChild_answers _).of_eq hindex hrank
  · exact ⟨hindex, by simp, fun _ => hrank⟩

def AffectsOnly (source : Int) (c c' : ChildInterface) : Prop :=
  ∀ n : InactiveJobNode, n.rank ≠ source → (n ∈ c.nodes.toList ↔ n ∈ c'.nodes.toList)

/-- An update of a node affects the nodes of another rank exactly when it changes the node. -/
theorem findAndUpdateNode_affectsOnly_iff {c : ChildInterface} {rank source epoch : Int} {index : Nat}
    {status : Status} : AffectsOnly source c (c.findAndUpdateNode rank index epoch status) ↔
      rank = source ∨ ∀ n, c.findNode rank index = some n → n.lastEpoch = epoch ∧ n.status = status := by
  rw [findAndUpdateNode]
  cases hfind : c.findNode rank index with
  | none => exact iff_of_true (fun n _ => Iff.rfl) (Or.inr fun n hn => by cases hn)
  | some n =>
      obtain ⟨hn, hrank⟩ := findNode_some hfind
      simp only [Option.some.injEq, forall_eq']
      constructor
      · intro h
        by_cases hsource : rank = source
        · exact Or.inl hsource
        · have hkept := (h n (hrank ▸ hsource)).mp hn
          rcases OrderedSet.mem_of_mem_insert hkept with heq | herased
          · exact Or.inr ⟨congrArg InactiveJobNode.lastEpoch heq, congrArg InactiveJobNode.status heq⟩
          · exact absurd herased (c.nodes.not_mem_erase n)
      · rintro (rfl | ⟨rfl, rfl⟩)
        · intro m hm
          have hne : m.rank ≠ n.rank := hrank.symm ▸ hm
          constructor
          · intro hmem
            refine OrderedSet.mem_insert_of_mem _ _ ((OrderedSet.mem_erase_iff _).mpr ⟨hmem, ?_⟩)
            rw [← Bool.not_eq_true, equivalent_iff_fields]
            exact fun hsame => hne hsame.2.2.symm
          · intro hmem
            rcases OrderedSet.mem_of_mem_insert hmem with rfl | hmem
            · exact absurd rfl hne
            · exact ((OrderedSet.mem_erase_iff _).mp hmem).1
        · intro m _
          constructor
          · intro hmem
            by_cases hsame : equivalent before n m = true
            · obtain rfl := c.nodes.eq_of_equivalent hn hmem hsame
              obtain ⟨y, hy, heq, hold⟩ := OrderedSet.exists_equivalent_of_insert (c.nodes.erase n) n
              rcases hold with rfl | hold
              · exact hy
              · obtain ⟨_, hne⟩ := (OrderedSet.mem_erase_iff _).mp hold
                rw [heq] at hne
                cases hne
            · refine OrderedSet.mem_insert_of_mem _ _ ((OrderedSet.mem_erase_iff _).mpr ⟨hmem, ?_⟩)
              exact Bool.eq_false_of_not_eq_true hsame
          · intro hmem
            rcases OrderedSet.mem_of_mem_insert hmem with rfl | hmem
            · exact hn
            · exact ((OrderedSet.mem_erase_iff _).mp hmem).1

end ChildInterface

namespace RejectingNodes

open ChildInterface LocalScheduler

variable {s s' : LocalScheduler}

def lastAddressee (journal : List Action) (index : Nat) : Int := journal.foldl (Action.addressee index) (-1)

theorem Action.addressee_of_release {a : Action} (h : a.release = true) (index : Nat) (rank : Int) :
    a.addressee index rank = rank := by
  cases a with
  | releaseFromWaiting => rfl
  | initializeChildWithNodes | sendBackNodes | returnNodes | directedRequest | undirectedRequest | openSessions => cases h

theorem Action.addressee_of_outside {a : Action} (h : a.outside = true) (index : Nat) (rank : Int) :
    a.addressee index rank = rank := by
  cases a with
  | sendBackNodes | returnNodes => rfl
  | releaseFromWaiting | initializeChildWithNodes | directedRequest | undirectedRequest | openSessions => cases h

theorem foldl_addressee {actions : List Action} {index : Nat} (h : ∀ a ∈ actions, ∀ rank, a.addressee index rank = rank)
    (rank : Int) : actions.foldl (Action.addressee index) rank = rank := by
  induction actions with
  | nil => rfl
  | cons a actions ih =>
      rw [List.foldl_cons, h a (List.mem_cons_self ..)]
      exact ih fun b hb => h b (List.mem_cons_of_mem _ hb)

theorem foldl_addressee_of_release {actions : List Action} (h : ∀ a ∈ actions, a.release = true) (index : Nat)
    (rank : Int) : actions.foldl (Action.addressee index) rank = rank :=
  foldl_addressee (fun a ha => Action.addressee_of_release (h a ha) index) rank

theorem foldl_addressee_of_outside {actions : List Action} (h : ∀ a ∈ actions, a.outside = true) (index : Nat)
    (rank : Int) : actions.foldl (Action.addressee index) rank = rank :=
  foldl_addressee (fun a ha => Action.addressee_of_outside (h a ha) index) rank

def Addressed (s : LocalScheduler) : Prop := ∀ side c, s.sessions side = some c →
  c.childIndex = s.childIndex side ∧ c.childRank = lastAddressee s.journal c.childIndex

theorem lastAddressee_append (journal actions : List Action) (index : Nat) :
    lastAddressee (journal ++ actions) index = actions.foldl (Action.addressee index) (lastAddressee journal index) :=
  List.foldl_append

section moves

variable {side : Side} {c : ChildInterface}

/-- A session changes together with the rank that it addresses; nothing is
addressed for the other side. -/
theorem Addressed.setSession (h : Addressed s) (hc : s.sessions side = some c) {c' : ChildInterface}
    {actions : List Action} (hindex : c'.childIndex = c.childIndex)
    (hrank : actions.foldl (Action.addressee c.childIndex) c.childRank = c'.childRank)
    (hother : ∀ index rank, index ≠ c.childIndex → actions.foldl (Action.addressee index) rank = rank) :
    Addressed ((s.setSession side c').log actions) := by
  have hlog : ∀ index, lastAddressee ((s.setSession side c').log actions).journal index =
      actions.foldl (Action.addressee index) (lastAddressee s.journal index) := lastAddressee_append s.journal actions
  intro side' d hd
  replace hd : (s.setSession side c').sessions side' = some d := hd
  obtain ⟨hci, hcr⟩ := h side c hc
  rw [sessions_setSession] at hd
  split at hd
  · next heq =>
      subst heq
      obtain rfl := Option.some.inj hd
      refine ⟨hindex.trans hci, ?_⟩
      rw [hlog, hindex, ← hcr, hrank]
  · next hne =>
      obtain ⟨hdi, hdr⟩ := h side' d hd
      refine ⟨hdi, ?_⟩
      have hindices : d.childIndex ≠ c.childIndex := by
        rw [hdi, hci]
        exact fun heq => hne (childIndex_injective heq)
      rw [hlog, hother _ _ hindices, hdr]

theorem Addressed.apply (h : Addressed s) (hc : s.sessions side = some c)
    {result : ChildInterface × List Action × MsgDirective} (ha : Answers c result) :
    Addressed (s.apply side result) := by
  refine h.setSession hc ha.childIndex ?_ ?_
  · rw [List.foldl_append, foldl_addressee_of_release ha.releases]
    cases hdirective : result.2.2 with
    | doNothing | emitUndirectedRequest => exact (ha.childRank (by simp [hdirective])).symm
    | emitDirectedRequest => simp [applyDirective, Action.addressee, ha.childIndex]
  · intro index rank hne
    rw [List.foldl_append, foldl_addressee_of_release ha.releases]
    cases hdirective : result.2.2 with
    | doNothing | emitUndirectedRequest => rfl
    | emitDirectedRequest => simp [applyDirective, Action.addressee, ha.childIndex, hne.symm]

theorem Addressed.join (h : Addressed s) (hc : s.sessions side = some c) (source epoch : Int) :
    Addressed ((s.setSession side (c.handleChildJoining source epoch).1).log (c.handleChildJoining source epoch).2) := by
  refine h.setSession hc (c.handleChildJoining_kept source epoch).childIndex ?_ ?_
  · rw [handleChildJoining_childRank, ChildInterface.handleChildJoining, List.foldl_cons,
      foldl_addressee_of_release (notifyRemainingInactiveNodes_releases _ _)]
    simp [Action.addressee]
  · intro index rank hne
    rw [ChildInterface.handleChildJoining, List.foldl_cons,
      foldl_addressee_of_release (notifyRemainingInactiveNodes_releases _ _)]
    simp [Action.addressee, hne.symm]

theorem Addressed.move (h : Addressed s) (hmove : Move (fun _ => True) s s') : Addressed s' := by
  cases hmove with
  | outside hactions hsessions hindex hjournal =>
      intro side c hc
      obtain ⟨hci, hcr⟩ := h side c (hsessions side c hc)
      refine ⟨hci.trans (by rw [childIndex_congr hindex]), ?_⟩
      rw [hjournal, lastAddressee_append, foldl_addressee_of_outside hactions, hcr]
  | opens hopened hsessions hindex hjournal =>
      intro side c hc
      obtain rfl := Option.some.inj ((hsessions side).symm.trans hc)
      refine ⟨by rw [childIndex_congr hindex]; rfl, ?_⟩
      rw [hjournal, lastAddressee_append]
      rfl
  | updates hc epoch volume hasChild => exact h.apply hc (handleBalancingUpdate_answers _ epoch volume hasChild)
  | rejects hc epoch lost hasChild suspended =>
      exact h.apply hc (handleRejectionOfPotentialChild_answers _ epoch lost hasChild suspended)
  | joins hc source epoch => exact h.join hc source epoch
  | @returns side c hc nodes =>
      have hreturned : Addressed ((s.setSession side (c.addJobNodesFromSuspendedChild nodes)).log []) :=
        h.setSession hc rfl rfl fun _ _ _ => rfl
      simpa [LocalScheduler.log] using hreturned
  | frees rank epoch index =>
      intro side c hc
      obtain ⟨d, hd, rfl⟩ := Option.map_eq_some_iff.mp hc
      have hindex := (d.removeNode_kept rank epoch index).childIndex
      obtain ⟨hdi, hdr⟩ := h side d hd
      refine ⟨hindex.trans hdi, ?_⟩
      rw [removeNode_childRank, hindex]
      exact hdr

end moves

section rejections

structure Rejection where
  source : Int
  epoch : Int
  index : Nat
  lost : Bool
  hasChild : Bool

inductive Event
  | rejection (r : Rejection)
  | other (call : Call)

/-- The source of a rejection is not looked at. -/
def Event.call : Event → Call
  | .rejection r => .handleRejectReactivation r.epoch r.index r.lost r.hasChild
  | .other call => call

def step (s : LocalScheduler) (event : Event) : Except Fault LocalScheduler := s.step event.call

def mark (s : LocalScheduler) (r : Rejection) : LocalScheduler :=
  match s.getSessionByChildIndex r.index with
  | none => s
  | some (side, session) => s.setSession side (session.rejected r.epoch r.lost)

theorem handleRejectReactivation_eq (s : LocalScheduler) (r : Rejection) :
    s.handleRejectReactivation r.epoch r.index r.lost r.hasChild =
      match s.getSessionByChildIndex r.index with
      | none => mark s r
      | some (side, session) =>
        if !r.hasChild && !(s.suspended || s.suspending) && (session.rejected r.epoch r.lost).wantsChild then
          (mark s r).apply side (session.rejected r.epoch r.lost).recruitChild
        else mark s r := by
  rw [LocalScheduler.handleRejectReactivation, mark]
  cases s.getSessionByChildIndex r.index with
  | none => rfl
  | some found =>
      simp only [handleRejectionOfPotentialChild_eq]
      split
      · exact (apply_setSession s found.1 _ _).symm
      · simp [apply, LocalScheduler.log, applyDirective, LocalScheduler.setSession]

def OnlyAffects (source : Int) (s s' : LocalScheduler) : Prop := ∀ side c, s.sessions side = some c →
  ∃ c', s'.sessions side = some c' ∧ AffectsOnly source c c'

/-- The rejection comes from the rank that was addressed last, or there is
nothing to be changed about the node of that rank. -/
def FromAddressee (s : LocalScheduler) (r : Rejection) : Prop := ∀ side c, s.sessions side = some c →
  c.childIndex = r.index → lastAddressee s.journal r.index = r.source ∨
    ∀ n, c.findNode (lastAddressee s.journal r.index) r.index = some n →
      n.lastEpoch = r.epoch ∧ n.status = if r.lost then .lost else .busy

variable {r : Rejection}

theorem getSessionByChildIndex_eq_none (h : s.getSessionByChildIndex r.index = none) {side : Side}
    {c : ChildInterface} (hc : s.sessions side = some c) : c.childIndex ≠ r.index := by
  intro hindex
  rw [getSessionByChildIndex, findSession] at h
  cases hleft : (s.sessions .left).filter (fun session => session.childIndex = r.index) with
  | some l =>
      rw [hleft] at h
      cases h
  | none =>
      rw [hleft] at h
      have hright := Option.map_eq_none_iff.mp h
      cases side with
      | left => simp [hc, hindex] at hleft
      | right => simp [hc, hindex] at hright

theorem mark_onlyAffects_iff (h : Addressed s) : OnlyAffects r.source s (mark s r) ↔ FromAddressee s r := by
  rw [mark]
  cases hfind : s.getSessionByChildIndex r.index with
  | none =>
      refine iff_of_true (fun side c hc => ⟨c, hc, fun _ _ => Iff.rfl⟩) fun side c hc hindex => ?_
      exact absurd hindex (getSessionByChildIndex_eq_none hfind hc)
  | some found =>
      obtain ⟨side, c⟩ := found
      obtain ⟨hc, hindex⟩ := findSession_some hfind
      have hindex : c.childIndex = r.index := of_decide_eq_true hindex
      obtain ⟨hside, hrank⟩ := h side c hc
      rw [hindex] at hrank
      have hsession : AffectsOnly r.source c (c.rejected r.epoch r.lost) ↔
          lastAddressee s.journal r.index = r.source ∨
            ∀ n, c.findNode (lastAddressee s.journal r.index) r.index = some n →
              n.lastEpoch = r.epoch ∧ n.status = if r.lost then .lost else .busy := by
        rw [rejected, findAndUpdateNode_affectsOnly_iff, hrank, hindex]
      constructor
      · intro haffects side' d hd hdindex
        obtain rfl : side = side' := childIndex_injective (s := s) (by
          rw [← hside, ← (h side' d hd).1, hindex, hdindex])
        obtain rfl := Option.some.inj (hc.symm.trans hd)
        obtain ⟨c', hc', hkept⟩ := haffects side c hc
        have hmarked : (s.setSession side (c.rejected r.epoch r.lost)).sessions side = some c' := hc'
        rw [sessions_setSession, if_pos rfl] at hmarked
        obtain rfl := Option.some.inj hmarked
        exact hsession.mp hkept
      · intro hfrom side' d hd
        simp only [sessions_setSession]
        split
        · next heq =>
            subst heq
            obtain rfl := Option.some.inj (hc.symm.trans hd)
            exact ⟨_, rfl, hsession.mpr (hfrom _ c hc hindex)⟩
        · exact ⟨d, hd, fun _ _ => Iff.rfl⟩

end rejections

section runs

theorem create_addressed (rank jobId : Int) (index : Nat) (parentRank : Int) :
    Addressed (SchedulerLifeCycle.create rank jobId index parentRank) := fun _ _ hc => nomatch hc

theorem Addressed.step {event : Event} (h : Addressed s) (hs' : step s event = .ok s') : Addressed s' := by
  have hmoves : Moves (fun _ => True) s s' :=
    step_moves (fun _ _ _ _ _ => ⟨trivial, trivial⟩) (fun _ _ _ => ⟨trivial, trivial⟩) hs'
  exact hmoves.invariant (fun _ _ hs hmove => hs.move hmove) h

/-- A rejection affects only the nodes of its sender if and only if it comes from
the rank that was addressed last, or has nothing to change about that rank's node. -/
theorem rejections_affect_source_iff (rank jobId : Int) (index : Nat) (parentRank : Int) (events : List Event) :
    (∀ s, run step (SchedulerLifeCycle.create rank jobId index parentRank) events = .ok s →
      ∀ r, OnlyAffects r.source s (mark s r) ↔ FromAddressee s r) ∧
    (Throughout step (fun s event => ∀ r, event = .rejection r → OnlyAffects r.source s (mark s r))
        (SchedulerLifeCycle.create rank jobId index parentRank) events ↔
      Throughout step (fun s event => ∀ r, event = .rejection r → FromAddressee s r)
        (SchedulerLifeCycle.create rank jobId index parentRank) events) := by
  have hcreate := create_addressed rank jobId index parentRank
  refine ⟨?_, ?_⟩
  · intro s hrun r
    have hs : Addressed s := run_invariant hcreate (fun _ _ _ hs hs' => Addressed.step hs hs') hrun
    exact mark_onlyAffects_iff hs
  · refine throughout_congr (J := Addressed) ?_ ?_ hcreate events
    · intro s event hs
      exact forall₂_congr fun r _ => mark_onlyAffects_iff hs
    · intro s event s' hs _ hs'
      exact hs.step hs'

def requeried : List Event :=
  [.other (.initializeScheduling
      { epoch := 0, inactiveJobNodes := (OrderedSet.empty.insert ⟨7, 1, 0, .available⟩).insert ⟨8, 1, 0, .available⟩ } (-1)),
    .other (.updateBalancing 1 2 false false), .other (.updateBalancing 2 2 false false)]

def requested : Rejection := { source := 7, epoch := 1, index := 1, lost := false, hasChild := false }

def requestedAgain : Rejection := { requested with epoch := 2 }

/-- The first rejection finds the session addressing its sender. -/
theorem rejections_affect_source_requeried : ∃ s,
    run step (SchedulerLifeCycle.create 0 1 0 (-1)) requeried = .ok s ∧ OnlyAffects 7 s (mark s requested) := by
  have hrun : (run step (SchedulerLifeCycle.create 0 1 0 (-1)) requeried).toOption.map
      (fun s => lastAddressee s.journal 1) = some 7 := by decide +kernel
  obtain ⟨s, hs, haddressee⟩ := exists_of_toOption hrun
  have hfrom : FromAddressee s requested := fun _ _ _ _ => Or.inl haddressee
  exact ⟨s, hs, ((rejections_affect_source_iff 0 1 0 (-1) requeried).1 s hs requested).mpr hfrom⟩

/-- The second one marks the node of 8, which was queried after the first one
and has not answered. -/
theorem rejections_affect_another_node : ∃ s,
    run step (SchedulerLifeCycle.create 0 1 0 (-1)) (requeried ++ [.rejection requested]) = .ok s ∧
      ¬OnlyAffects requestedAgain.source s (mark s requestedAgain) := by
  have hrun : (run step (SchedulerLifeCycle.create 0 1 0 (-1)) (requeried ++ [.rejection requested])).toOption.map
      (fun s => ((s.sessions .left).any fun c => (⟨8, 1, 0, .available⟩ : InactiveJobNode) ∈ c.nodes.toList,
        ((mark s requestedAgain).sessions .left).any fun c => (⟨8, 1, 0, .available⟩ : InactiveJobNode) ∈ c.nodes.toList)) =
      some (true, false) := by decide +kernel
  obtain ⟨s, hs, heq⟩ := exists_of_toOption hrun
  obtain ⟨hbefore, hafter⟩ := Prod.mk.inj heq
  refine ⟨s, hs, fun haffects => ?_⟩
  obtain ⟨c, hc, hmem⟩ := (Option.any_eq_true _ _).mp hbefore
  obtain ⟨c', hc', hkept⟩ := haffects .left c hc
  rw [hc'] at hafter
  exact of_decide_eq_false hafter ((hkept _ (by decide)).mp (of_decide_eq_true hmem))

end runs

end RejectingNodes

end Mallob
