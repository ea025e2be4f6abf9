import Mallob.SchedulerSteps

namespace Mallob

def Action.outside : Action → Bool
  | .sendBackNodes _ _ => true
  | .returnNodes _ _ => true
  | _ => false

namespace LocalScheduler

open InactiveJobNodeList

variable {s s' : LocalScheduler} {Opened : InactiveJobNodeList → Prop}

def freshSession (s : LocalScheduler) (side : Side) (nodes : InactiveJobNodeList) : ChildInterface :=
  { jobId := s.jobId, nodes := nodes, childIndex := s.childIndex side }

/-- All that is ever done to the sessions. They open together, with lists that
are known to be `Opened`. -/
inductive Move (Opened : InactiveJobNodeList → Prop) (s : LocalScheduler) : LocalScheduler → Prop
  | outside {s' : LocalScheduler} {actions : List Action} (hactions : ∀ a ∈ actions, a.outside = true)
      (hsessions : ∀ side c, s'.sessions side = some c → s.sessions side = some c) (hindex : s'.index = s.index)
      (hjournal : s'.journal = s.journal ++ actions) : Move Opened s s'
  | opens {s' : LocalScheduler} {nodes : Side → InactiveJobNodeList} (hopened : ∀ side, Opened (nodes side))
      (hsessions : ∀ side, s'.sessions side = some (s.freshSession side (nodes side))) (hindex : s'.index = s.index)
      (hjournal : s'.journal = s.journal ++ [.openSessions]) : Move Opened s s'
  | updates {side : Side} {c : ChildInterface} (hc : s.sessions side = some c) (epoch volume : Int) (hasChild : Bool) :
      Move Opened s (s.apply side (c.handleBalancingUpdate epoch volume hasChild))
  | rejects {side : Side} {c : ChildInterface} (hc : s.sessions side = some c) (epoch : Int)
      (lost hasChild suspended : Bool) :
      Move Opened s (s.apply side (c.handleRejectionOfPotentialChild epoch lost hasChild suspended))
  | joins {side : Side} {c : ChildInterface} (hc : s.sessions side = some c) (source epoch : Int) :
      Move Opened s ((s.setSession side (c.handleChildJoining source epoch).1).log (c.handleChildJoining source epoch).2)
  | returns {side : Side} {c : ChildInterface} (hc : s.sessions side = some c) (nodes : InactiveJobNodeList) :
      Move Opened s (s.setSession side (c.addJobNodesFromSuspendedChild nodes))
  | frees (rank epoch : Int) (index : Nat) : Move Opened s (s.handleNodeFreed rank epoch index)

def Moves (Opened : InactiveJobNodeList → Prop) : LocalScheduler → LocalScheduler → Prop :=
  Relation.ReflTransGen (Move Opened)

theorem Moves.refl (s : LocalScheduler) : Moves Opened s s := Relation.ReflTransGen.refl

theorem Moves.trans {s₁ : LocalScheduler} (h : Moves Opened s s₁) (h' : Moves Opened s₁ s') : Moves Opened s s' :=
  Relation.ReflTransGen.trans h h'

theorem Move.moves (h : Move Opened s s') : Moves Opened s s' := Relation.ReflTransGen.single h

theorem Moves.invariant {P : LocalScheduler → Prop} (hmove : ∀ s s', P s → Move Opened s s' → P s')
    (h : Moves Opened s s') (hs : P s) : P s' := by
  induction h with
  | refl => exact hs
  | tail _ hstep ih => exact hmove _ _ ih hstep

theorem moves_of_frame (hsessions : s'.sessions = s.sessions) (hindex : s'.index = s.index)
    (hjournal : s'.journal = s.journal) : Moves Opened s s' := by
  refine (@Move.outside Opened s s' [] (by simp) ?_ hindex (by simp [hjournal])).moves
  intro side c hc
  rw [← hsessions]
  exact hc

theorem moves_of_closed (hclosed : ∀ side, s'.sessions side = none) (hindex : s'.index = s.index)
    (hjournal : s'.journal = s.journal) : Moves Opened s s' := by
  refine (@Move.outside Opened s s' [] (by simp) ?_ hindex (by simp [hjournal])).moves
  intro side c hc
  cases (hclosed side).symm.trans hc

section opening

theorem openSession_cases {side : Side} {nodes : InactiveJobNodeList} (h : s.openSession side nodes = .ok s') :
    s.sessions side = none ∧ (s' = s.setSession side (s.freshSession side nodes) ∨
      s' = s.apply side ((s.freshSession side nodes).handleBalancingUpdate s.lastUpdateEpoch s.lastUpdateVolume false)) := by
  cases hc : s.sessions side with
  | some c =>
      rw [openSession, hc] at h
      cases h
  | none =>
      simp only [openSession, hc] at h
      split at h
      · obtain rfl := Except.ok.inj h
        exact ⟨rfl, Or.inr rfl⟩
      · obtain rfl := Except.ok.inj h
        exact ⟨rfl, Or.inl rfl⟩

theorem eq_of_sessions {t : LocalScheduler} (hsessions : ∀ side, s.sessions side = t.sessions side)
    (hrest : { s with sessions := t.sessions } = t) : s = t := by
  rw [← hrest, ← funext hsessions]

theorem apply_setSession (s : LocalScheduler) (side : Side) (c : ChildInterface)
    (result : ChildInterface × List Action × MsgDirective) : (s.setSession side c).apply side result = s.apply side result := by
  refine eq_of_sessions (fun side' => ?_) rfl
  rw [sessions_apply, sessions_apply, sessions_setSession]
  split
  · rfl
  · rfl

theorem apply_setSession_comm (s : LocalScheduler) (c : ChildInterface)
    (result : ChildInterface × List Action × MsgDirective) :
    (s.setSession .right c).apply .left result = (s.apply .left result).setSession .right c :=
  eq_of_sessions (fun side => by cases side <;> rfl) rfl

def bothOpen (s : LocalScheduler) (nodes : Side → InactiveJobNodeList) : LocalScheduler :=
  { s.log [.openSessions] with sessions := fun side => some (s.freshSession side (nodes side)) }

/-- The two sessions might as well be constructed first and updated then. -/
theorem bothOpen_moves {s₁ s₂ : LocalScheduler} {nodes : Side → InactiveJobNodeList}
    (hopened : ∀ side, Opened (nodes side))
    (hs₁ : (s.log [.openSessions]).openSession .left (nodes .left) = .ok s₁)
    (hs₂ : s₁.openSession .right (nodes .right) = .ok s₂) : Moves Opened s s₂ := by
  have hopen : Move Opened s (s.bothOpen nodes) := .opens hopened (fun _ => rfl) rfl rfl
  generalize hr : s.freshSession .right (nodes .right) = r
  have hfirst : s₁.freshSession .right (nodes .right) = r ∧ Moves Opened (s.bothOpen nodes) (s₁.setSession .right r) := by
    generalize hl : s.freshSession .left (nodes .left) = l
    have hboth : s.bothOpen nodes = ((s.log [.openSessions]).setSession .left l).setSession .right r := by
      rw [← hr, ← hl]
      exact eq_of_sessions (fun side => by cases side <;> rfl) rfl
    obtain ⟨_, rfl | rfl⟩ := openSession_cases hs₁
    · refine ⟨hr, ?_⟩
      rw [hboth, ← hl]
      exact Moves.refl _
    · refine ⟨hr, ?_⟩
      have hleft : (s.bothOpen nodes).sessions .left = some l := by rw [← hl]; rfl
      have hmove : Move Opened (s.bothOpen nodes) _ :=
        .updates hleft (s.log [.openSessions]).lastUpdateEpoch (s.log [.openSessions]).lastUpdateVolume false
      rw [hboth, apply_setSession_comm, apply_setSession] at hmove
      rw [hboth]
      exact hl ▸ hmove.moves
  have hlast : Moves Opened (s₁.setSession .right r) s₂ := by
    have hright : (s₁.setSession .right r).sessions .right = some r := by
      rw [sessions_setSession, if_pos rfl]
    obtain ⟨_, h⟩ := openSession_cases hs₂
    rw [hfirst.1] at h
    rcases h with rfl | rfl
    · exact Moves.refl _
    · have hmove : Move Opened (s₁.setSession .right r) _ := .updates hright s₁.lastUpdateEpoch s₁.lastUpdateVolume false
      rw [apply_setSession] at hmove
      exact hmove.moves
  exact hopen.moves.trans (hfirst.2.trans hlast)

def half (update : JobSchedulingUpdate) (index : Nat) : Side → InactiveJobNodeList
  | .left => (update.split index).1
  | .right => (update.split index).2

def OpenedBy (Opened : InactiveJobNodeList → Prop) (update : JobSchedulingUpdate) : Prop :=
  ∀ index, Opened (update.split index).1 ∧ Opened (update.split index).2

theorem initializeScheduling_moves {update : JobSchedulingUpdate} (hupdate : OpenedBy Opened update)
    {parentRank : Int} (h : s.initializeScheduling update parentRank = .ok s') : Moves Opened s s' := by
  by_cases hpast : s.index > 0 ∧ update.epoch ≤ s.epochOfLastSuspension
  · simp only [initializeScheduling, hpast, and_self, if_true] at h
    obtain rfl := Except.ok.inj h
    refine Move.moves (@Move.outside Opened s _ [.sendBackNodes _ _] ?_ (fun _ _ hc => hc) rfl rfl)
    intro a ha
    obtain rfl := List.mem_singleton.mp ha
    rfl
  · rw [initializeScheduling_eq hpast] at h
    obtain ⟨s₁, hs₁, h⟩ := Runs.exists_of_bind_eq_ok h
    obtain ⟨hsessions, _, _, hjournal, _, hindex⟩ := noteUpdate_frame { s with parentRank := parentRank } update
    have hnoted : Moves Opened s { noteUpdate { s with parentRank := parentRank } update with suspended := false } :=
      moves_of_frame hsessions hindex hjournal
    refine hnoted.trans (@bothOpen_moves _ Opened s₁ s' (half update s.index) ?_ hs₁ h)
    intro side
    cases side with
    | left => exact (hupdate s.index).1
    | right => exact (hupdate s.index).2

end opening

theorem returnIfPossible_moves (h : s.returnIfPossible = .ok s') : Moves Opened s s' := by
  obtain ⟨b, _, h⟩ := Runs.exists_of_bind_eq_ok h
  cases b with
  | false =>
      obtain rfl := Except.ok.inj h
      exact Moves.refl s
  | true =>
      have h : s.returnInactiveJobNodesToParent = .ok s' := h
      rw [returnInactiveJobNodesToParent] at h
      split at h
      · cases h
      · obtain ⟨nodes, _, h⟩ := Runs.exists_of_bind_eq_ok h
        obtain rfl := Except.ok.inj h
        refine Move.moves (@Move.outside Opened s _ [.returnNodes _ _] ?_ (fun side c hc => ?_) rfl rfl)
        · intro a ha
          obtain rfl := List.mem_singleton.mp ha
          rfl
        · cases hc

def Resumed (Opened : InactiveJobNodeList → Prop) : Prop := ∀ (update : JobSchedulingUpdate) left right,
  update.inactiveJobNodes = cleanUpStatuses (mergePreferringNewer left right) → OpenedBy Opened update

section steps

variable (hresumed : Resumed Opened)

include hresumed

theorem resumeAsRoot_moves (h : s.resumeAsRoot = .ok s') : Moves Opened s s' := by
  rw [resumeAsRoot] at h
  obtain ⟨b, _, h⟩ := Runs.exists_of_bind_eq_ok h
  cases b with
  | false => cases h
  | true =>
      obtain ⟨nodes, hnodes, h⟩ := Runs.exists_of_bind_eq_ok h
      obtain ⟨l, _, hnodes⟩ := Runs.exists_of_bind_eq_ok hnodes
      obtain ⟨r, _, hnodes⟩ := Runs.exists_of_bind_eq_ok hnodes
      obtain rfl := Except.ok.inj hnodes
      have hclosed : Moves Opened s { s.closeSessions with resuming := false, suspending := false } :=
        moves_of_closed (fun _ => rfl) rfl rfl
      refine hclosed.trans ?_
      exact initializeScheduling_moves (hresumed _ _ _ rfl) h

theorem resumeIfPossible_moves (h : s.resumeIfPossible = .ok s') : Moves Opened s s' := by
  obtain ⟨b, _, h⟩ := Runs.exists_of_bind_eq_ok h
  cases b with
  | false =>
      obtain rfl := Except.ok.inj h
      exact Moves.refl s
  | true => exact resumeAsRoot_moves hresumed h

theorem settle_moves (h : s.settle = .ok s') : Moves Opened s s' := by
  obtain ⟨s₁, hs₁, h⟩ := Runs.exists_of_bind_eq_ok h
  exact (returnIfPossible_moves hs₁).trans (resumeIfPossible_moves hresumed h)

end steps

theorem beginSuspension_moves {epoch : Int} (h : s.beginSuspension epoch = .ok s') : Moves Opened s s' := by
  simp only [beginSuspension] at h
  split at h
  · obtain rfl := Except.ok.inj h
    exact moves_of_frame rfl rfl rfl
  · have hsuspending : Moves Opened s { s with epochOfLastSuspension := s.suspensionEpoch epoch, suspending := true } :=
      moves_of_frame rfl rfl rfl
    exact hsuspending.trans (returnIfPossible_moves h)

theorem updateSession_moves (s : LocalScheduler) (epoch volume : Int) (side : Side) (hasChild : Bool) :
    Moves Opened s (s.updateSession epoch volume side hasChild) := by
  rw [updateSession]
  cases hc : s.sessions side with
  | none => exact Moves.refl s
  | some c => exact (Move.updates hc epoch volume hasChild).moves

theorem updateBalancing_moves {epoch volume : Int} {hasL hasR : Bool}
    (h : s.updateBalancing epoch volume hasL hasR = .ok s') : Moves Opened s s' := by
  simp only [updateBalancing] at h
  split at h
  · obtain rfl := Except.ok.inj h
    exact Moves.refl s
  · have hnoted : Moves Opened s { s with lastUpdateEpoch := epoch, lastUpdateVolume := volume } :=
      moves_of_frame rfl rfl rfl
    split at h
    · obtain rfl := Except.ok.inj h
      exact hnoted
    · have hupdated := (hnoted.trans (updateSession_moves _ epoch volume .left hasL)).trans
        (updateSession_moves _ epoch volume .right hasR)
      split at h
      · exact hupdated.trans (beginSuspension_moves h)
      · obtain rfl := Except.ok.inj h
        exact hupdated

theorem addReturnedNodes_moves (s : LocalScheduler) (source : Int) (nodes : InactiveJobNodeList) :
    Moves Opened s (s.addReturnedNodes source nodes) := by
  rw [addReturnedNodes]
  cases hfind : s.getSessionByChildRank source with
  | none => exact Moves.refl s
  | some found => exact (Move.returns (findSession_some hfind).1 nodes).moves

theorem handleRejectReactivation_moves (s : LocalScheduler) (epoch : Int) (index : Nat) (lost hasChild : Bool) :
    Moves Opened s (s.handleRejectReactivation epoch index lost hasChild) := by
  rw [handleRejectReactivation]
  cases hfind : s.getSessionByChildIndex index with
  | none => exact Moves.refl s
  | some found => exact (Move.rejects (findSession_some hfind).1 epoch lost hasChild _).moves

theorem handleChildJoining_moves (s : LocalScheduler) (source epoch : Int) (index : Nat) :
    Moves Opened s (s.handleChildJoining source epoch index) := by
  rw [handleChildJoining]
  cases hfind : s.getSessionByChildIndex index with
  | none => exact Moves.refl s
  | some found => exact (Move.joins (findSession_some hfind).1 source epoch).moves

def Call.initial : Call → Option JobSchedulingUpdate
  | .initializeScheduling update _ => some update
  | .handleInitialize _ update => some update
  | _ => none

theorem step_moves (hresumed : Resumed Opened) {call : Call}
    (hinitial : ∀ update, call.initial = some update → OpenedBy Opened update) (h : s.step call = .ok s') :
    Moves Opened s s' := by
  cases call with
  | initializeScheduling update parentRank => exact initializeScheduling_moves (hinitial update rfl) h
  | updateBalancing epoch volume hasL hasR => exact updateBalancing_moves h
  | beginSuspension epoch => exact beginSuspension_moves h
  | handleInitialize source update =>
      obtain ⟨s₁, hs₁, h⟩ := Runs.exists_of_bind_eq_ok h
      exact (initializeScheduling_moves (hinitial update rfl) hs₁).trans (settle_moves hresumed h)
  | handleReturn source nodes => exact (addReturnedNodes_moves s source nodes).trans (settle_moves hresumed h)
  | handleRejectReactivation epoch index lost hasChild =>
      obtain rfl := Except.ok.inj h
      exact handleRejectReactivation_moves s epoch index lost hasChild
  | handleChildJoining source epoch index =>
      obtain rfl := Except.ok.inj h
      exact handleChildJoining_moves s source epoch index
  | handleNodeFreed rank epoch index =>
      obtain rfl := Except.ok.inj h
      exact (Move.frees rank epoch index).moves
  | beginResumptionAsRoot =>
      simp only [step, beginResumptionAsRoot] at h
      split at h
      · cases h
      · split at h
        · cases h
        · have hresuming : Moves Opened s { s with resuming := true } := moves_of_frame rfl rfl rfl
          exact hresuming.trans (resumeIfPossible_moves hresumed h)
  | resetRole =>
      obtain rfl := Except.ok.inj h
      exact moves_of_closed (fun _ => rfl) rfl rfl

end LocalScheduler

end Mallob
