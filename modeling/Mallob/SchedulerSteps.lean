import Mallob.LocalScheduler
import Mallob.ChildSessions

namespace Mallob.LocalScheduler

open InactiveJobNodeList

variable {s s' : LocalScheduler} {update : JobSchedulingUpdate}

theorem childIndex_ne (s : LocalScheduler) : s.childIndex .left ≠ s.childIndex .right := by
  simp only [childIndex]
  omega

theorem childIndex_congr (h : s'.index = s.index) (side : Side) : s'.childIndex side = s.childIndex side := by
  cases side with
  | left => simp only [childIndex, h]
  | right => simp only [childIndex, h]

theorem childIndex_injective {side side' : Side} (h : s.childIndex side = s.childIndex side') : side = side' := by
  cases side with
  | left => cases side' with
    | left => rfl
    | right => exact absurd h s.childIndex_ne
  | right => cases side' with
    | left => exact absurd h.symm s.childIndex_ne
    | right => rfl

theorem childIndex_gt (s : LocalScheduler) (side : Side) : s.index < s.childIndex side := by
  cases side with
  | left => simp only [childIndex]; omega
  | right => simp only [childIndex]; omega

structure Aligned (s : LocalScheduler) : Prop where
  sessions : ∀ side, (s.sessions side).isSome = !s.suspended
  suspending : s.suspending = true → s.suspended = false
  resuming : s.resuming = true → s.index = 0 ∧ s.suspending = true
  indices : ∀ side c, s.sessions side = some c → c.childIndex = s.childIndex side

theorem Aligned.session (h : Aligned s) (hactive : s.suspended = false) (side : Side) :
    ∃ c, s.sessions side = some c := by
  have hsome := h.sessions side
  rw [hactive] at hsome
  exact Option.isSome_iff_exists.mp hsome

theorem Aligned.no_session (h : Aligned s) (hclosed : s.suspended = true) (side : Side) : s.sessions side = none := by
  have hsome := h.sessions side
  rw [hclosed] at hsome
  exact Option.not_isSome_iff_eq_none.mp (by simp [hsome])

theorem Aligned.suspended_of_none (h : Aligned s) (hnone : ∀ side, s.sessions side = none) : s.suspended = true := by
  have hsome := h.sessions .left
  rw [hnone] at hsome
  simpa using hsome.symm

theorem Aligned.side_eq (h : Aligned s) {side side' : Side} {c d : ChildInterface} (hc : s.sessions side = some c)
    (hd : s.sessions side' = some d) (heq : c.childIndex = d.childIndex) : side = side' :=
  childIndex_injective ((h.indices side c hc).symm.trans (heq.trans (h.indices side' d hd)))

theorem Aligned.log (h : Aligned s) (actions : List Action) : Aligned (s.log actions) :=
  ⟨h.sessions, h.suspending, h.resuming, h.indices⟩

/-- Whether sessions are open; no value once nodes were returned without any. -/
def phase : Option Bool → Action → Option Bool
  | some false, .returnNodes _ _ => none
  | some true, .returnNodes _ _ => some false
  | some _, .openSessions => some true
  | p, _ => p

/-- Lost nodes only where a child was queried, sessions opened before each
return, and the scheduler's own node in every list it has returned. -/
structure Recorded (s : LocalScheduler) : Prop where
  lost : ∀ side c, s.sessions side = some c → c.LostAtIndex
  phases : s.journal.foldl phase (some false) = some (!s.suspended)
  own : ∀ destination update, Action.returnNodes destination update ∈ s.journal →
    ∃ n ∈ update.inactiveJobNodes.toList, n.rank = s.rank ∧ n.originalIndex = s.index

theorem phase_inSession {a : Action} (h : a.inSession = true) (p : Option Bool) : phase p a = p := by
  cases a with
  | returnNodes | openSessions => cases h
  | releaseFromWaiting | initializeChildWithNodes | sendBackNodes | directedRequest | undirectedRequest =>
      rcases p with _ | _ | _ <;> rfl

theorem foldl_phase_inSession {actions : List Action} (h : ∀ a ∈ actions, a.inSession = true) (p : Option Bool) :
    actions.foldl phase p = p := by
  induction actions with
  | nil => rfl
  | cons a actions ih =>
      rw [List.foldl_cons, phase_inSession (h a (by simp))]
      exact ih fun b hb => h b (by simp [hb])

theorem Recorded.log (h : Recorded s) {actions : List Action} (ha : ∀ a ∈ actions, a.inSession = true) :
    Recorded (s.log actions) where
  lost := h.lost
  phases := by
    have hphases := h.phases
    simp only [LocalScheduler.log, List.foldl_append, hphases, foldl_phase_inSession ha]
  own := by
    intro destination update hmem
    rcases List.mem_append.mp hmem with hmem | hmem
    · exact h.own destination update hmem
    · cases ha _ hmem

section SetSession

variable {side : Side} {c c' : ChildInterface}

theorem sessions_setSession (s : LocalScheduler) (side side' : Side) (c : ChildInterface) :
    (s.setSession side c).sessions side' = if side' = side then some c else s.sessions side' := by
  by_cases h : side' = side
  · subst h
    simp [setSession]
  · simp [setSession, h]

theorem Aligned.setSession (h : Aligned s) (hc : s.sessions side = some c) (hindex : c'.childIndex = c.childIndex) :
    Aligned (s.setSession side c') where
  sessions := by
    intro side'
    have hold := h.sessions side'
    rw [sessions_setSession]
    split
    · next heq =>
        subst heq
        rw [hc] at hold
        exact hold
    · exact hold
  suspending := h.suspending
  resuming := h.resuming
  indices := by
    intro side' d hd
    rw [sessions_setSession] at hd
    split at hd
    · next heq =>
        subst heq
        obtain rfl := Option.some.inj hd
        exact hindex.trans (h.indices side' c hc)
    · exact h.indices side' d hd

theorem Recorded.setSession (h : Recorded s) (hlost : c'.LostAtIndex) : Recorded (s.setSession side c') where
  lost := by
    intro side' d hd
    rw [sessions_setSession] at hd
    split at hd
    · obtain rfl := Option.some.inj hd
      exact hlost
    · exact h.lost side' d hd
  phases := h.phases
  own := h.own

end SetSession

theorem applyDirective_inSession (c : ChildInterface) (directive : MsgDirective) :
    ∀ a ∈ applyDirective c directive, a.inSession = true := by
  intro a ha
  cases directive with
  | doNothing => cases ha
  | emitDirectedRequest | emitUndirectedRequest =>
      obtain rfl := List.mem_singleton.mp ha
      rfl

section Apply

variable {side : Side} {c : ChildInterface} {result : ChildInterface × List Action × MsgDirective}

theorem sessions_apply (s : LocalScheduler) (side side' : Side)
    (result : ChildInterface × List Action × MsgDirective) :
    (s.apply side result).sessions side' = if side' = side then some result.1 else s.sessions side' :=
  sessions_setSession s side side' result.1

theorem Aligned.apply (h : Aligned s) (hc : s.sessions side = some c) (hkept : c.Kept result.1) :
    Aligned (s.apply side result) := (h.setSession hc hkept.childIndex).log _

theorem Recorded.apply (h : Recorded s) (hlost : result.1.LostAtIndex)
    (ha : ∀ a ∈ result.2.1, a.inSession = true) : Recorded (s.apply side result) := by
  refine (h.setSession hlost).log ?_
  intro a hmem
  rcases List.mem_append.mp hmem with hmem | hmem
  · exact ha a hmem
  · exact applyDirective_inSession _ _ a hmem

end Apply

theorem findSession_some {p : ChildInterface → Bool} {side : Side} {c : ChildInterface}
    (h : s.findSession p = some (side, c)) : s.sessions side = some c ∧ p c = true := by
  rw [findSession] at h
  cases hleft : (s.sessions .left).filter p with
  | some l =>
      rw [hleft] at h
      obtain ⟨rfl, rfl⟩ := Prod.mk.inj (Option.some.inj h)
      exact Option.filter_eq_some_iff.mp hleft
  | none =>
      rw [hleft] at h
      obtain ⟨r, hr, heq⟩ := Option.map_eq_some_iff.mp h
      obtain ⟨rfl, rfl⟩ := Prod.mk.inj heq
      exact Option.filter_eq_some_iff.mp hr

def Quiet (s : LocalScheduler) : Prop := ∀ side c, s.sessions side = some c → c.childHasNodes = false

/-- What the functions that end or restart sessions do: they run through, and
they touch sessions only when no child holds nodes. -/
structure Settled (s s' : LocalScheduler) : Prop where
  aligned : Aligned s'
  sessions : s'.sessions = s.sessions ∨ s.Quiet ∧ s'.Quiet
  recorded : s.Recorded → s'.Recorded
  rank : s'.rank = s.rank
  index : s'.index = s.index

theorem Settled.refl (h : Aligned s) : Settled s s := ⟨h, Or.inl rfl, id, rfl, rfl⟩

theorem Settled.trans {s₁ s₂ : LocalScheduler} (h₁ : Settled s s₁) (h₂ : Settled s₁ s₂) : Settled s s₂ where
  aligned := h₂.aligned
  sessions := by
    rcases h₂.sessions with heq | ⟨hq, hq'⟩
    · rcases h₁.sessions with heq' | ⟨hq, hq'⟩
      · exact Or.inl (heq.trans heq')
      · refine Or.inr ⟨hq, ?_⟩
        rw [Quiet, heq]
        exact hq'
    · rcases h₁.sessions with heq' | ⟨hq₀, _⟩
      · refine Or.inr ⟨?_, hq'⟩
        rw [Quiet, ← heq']
        exact hq
      · exact Or.inr ⟨hq₀, hq'⟩
  recorded := h₂.recorded ∘ h₁.recorded
  rank := h₂.rank.trans h₁.rank
  index := h₂.index.trans h₁.index

section Checks

theorem noChildHasNodes_ok (h : Aligned s) (hactive : s.suspended = false) :
    ∃ b, s.noChildHasNodes = .ok b ∧ (b = true ↔ s.Quiet) := by
  obtain ⟨l, hl⟩ := h.session hactive .left
  obtain ⟨r, hr⟩ := h.session hactive .right
  refine ⟨!l.childHasNodes && !r.childHasNodes, ?_, ?_⟩
  · cases hnodes : l.childHasNodes with
    | true => simp [noChildHasNodes, getSession, hl, hnodes, bind, Except.bind, pure, Except.pure]
    | false => simp [noChildHasNodes, getSession, hl, hr, hnodes, bind, Except.bind, pure, Except.pure]
  · rw [Bool.and_eq_true, Bool.not_eq_true', Bool.not_eq_true']
    constructor
    · rintro ⟨hleft, hright⟩ side c hc
      cases side with
      | left => obtain rfl := Option.some.inj (hl.symm.trans hc); exact hleft
      | right => obtain rfl := Option.some.inj (hr.symm.trans hc); exact hright
    · intro hquiet
      exact ⟨hquiet .left l hl, hquiet .right r hr⟩

theorem canReturnInactiveJobNodes_ok (h : Aligned s) : ∃ b, s.canReturnInactiveJobNodes = .ok b ∧
    (b = true ↔ s.index ≠ 0 ∧ s.suspending = true ∧ s.Quiet) := by
  by_cases hroot : s.index = 0
  · exact ⟨false, by simp [canReturnInactiveJobNodes, hroot], by simp [hroot]⟩
  · cases hsuspending : s.suspending with
    | false => exact ⟨false, by simp [canReturnInactiveJobNodes, hroot, hsuspending], by simp⟩
    | true =>
        have hactive := h.suspending hsuspending
        obtain ⟨b, hb, hiff⟩ := noChildHasNodes_ok h hactive
        exact ⟨b, by simp [canReturnInactiveJobNodes, hroot, hsuspending, hactive, hb], by simp [hiff, hroot]⟩

theorem canResumeAsRoot_ok (h : Aligned s) : ∃ b, s.canResumeAsRoot = .ok b ∧
    (b = true ↔ s.resuming = true ∧ s.Quiet) := by
  cases hresuming : s.resuming with
  | false => exact ⟨false, by simp [canResumeAsRoot, hresuming], by simp⟩
  | true =>
      obtain ⟨b, hb, hiff⟩ := noChildHasNodes_ok h (h.suspending (h.resuming hresuming).2)
      exact ⟨b, by simp [canResumeAsRoot, hresuming, hb], by simp [hiff]⟩

/-- The nodes of both sessions, among which lost ones have a child's index. -/
theorem mergedNodes_ok (h : Aligned s) (hactive : s.suspended = false) : ∃ nodes, s.mergedNodes = .ok nodes ∧
    (s.Recorded → ∀ n ∈ nodes.toList, n.status = .lost → n.originalIndex ≠ s.index) := by
  obtain ⟨l, hl⟩ := h.session hactive .left
  obtain ⟨r, hr⟩ := h.session hactive .right
  refine ⟨mergePreferringNewer (mergePreferringNewer OrderedSet.empty l.nodes) r.nodes, ?_, ?_⟩
  · simp [mergedNodes, getSession, hl, hr, bind, Except.bind, pure, Except.pure]
  · intro hrec n hn hlost
    have hchild : ∃ side, n.originalIndex = s.childIndex side := by
      rcases mem_mergePreferringNewer hn with hn | hn
      · rcases mem_mergePreferringNewer hn with hempty | hn
        · cases hempty
        · exact ⟨.left, (hrec.lost .left l hl n hn hlost).trans (h.indices .left l hl)⟩
      · exact ⟨.right, (hrec.lost .right r hr n hn hlost).trans (h.indices .right r hr)⟩
    obtain ⟨side, hside⟩ := hchild
    rw [hside]
    exact (s.childIndex_gt side).ne'

end Checks

theorem own_node_kept {nodes : InactiveJobNodeList} {rank epoch : Int} {index : Nat}
    (hlost : ∀ n ∈ nodes.toList, n.status = .lost → n.originalIndex ≠ index) :
    ∃ n ∈ (cleanUpStatuses (nodes.insert ⟨rank, index, epoch, .available⟩)).toList,
      n.rank = rank ∧ n.originalIndex = index := by
  obtain ⟨m, hm, hsame, hold⟩ := OrderedSet.exists_equivalent_of_insert nodes ⟨rank, index, epoch, .available⟩
  obtain ⟨hindex, _, hrank⟩ := equivalent_iff_fields.mp hsame
  refine ⟨m.withStatus .available, mem_cleanUpStatuses.mpr ⟨m, hm, ?_, rfl⟩, hrank.symm, hindex.symm⟩
  rcases hold with rfl | hold
  · simp
  · intro hstatus
    exact hlost m hold hstatus hindex.symm

theorem sendToParent_settled (h : Aligned s) (hsuspending : s.suspending = true) (hroot : s.index ≠ 0)
    (hquiet : s.Quiet) {nodes : InactiveJobNodeList}
    (hlost : s.Recorded → ∀ n ∈ nodes.toList, n.status = .lost → n.originalIndex ≠ s.index) :
    Settled s (s.sendToParent nodes) where
  aligned := by
    refine ⟨fun side => rfl, fun hfalse => ?_, fun hresuming => ?_, fun side c hc => ?_⟩
    · cases hfalse
    · exact absurd (h.resuming hresuming).1 hroot
    · cases hc
  sessions := Or.inr ⟨hquiet, fun side c hc => by cases hc⟩
  recorded := by
    intro hrec
    refine ⟨fun side c hc => ?_, ?_, ?_⟩
    · cases hc
    · have hphases := hrec.phases
      rw [h.suspending hsuspending] at hphases
      simp [sendToParent, closeSessions, LocalScheduler.log, List.foldl_append, hphases, phase]
    · intro destination update hmem
      rcases List.mem_append.mp hmem with hmem | hmem
      · exact hrec.own destination update hmem
      · obtain ⟨_, rfl⟩ := Action.returnNodes.inj (List.mem_singleton.mp hmem)
        exact own_node_kept (hlost hrec)
  rank := rfl
  index := rfl

theorem returnInactiveJobNodesToParent_ok (h : Aligned s) (hsuspending : s.suspending = true)
    (hroot : s.index ≠ 0) (hquiet : s.Quiet) :
    ∃ s', s.returnInactiveJobNodesToParent = .ok s' ∧ Settled s s' := by
  have hactive := h.suspending hsuspending
  obtain ⟨nodes, hnodes, hlost⟩ := mergedNodes_ok h hactive
  refine ⟨s.sendToParent nodes, ?_, sendToParent_settled h hsuspending hroot hquiet hlost⟩
  simp [returnInactiveJobNodesToParent, hsuspending, hactive, hnodes, bind, Except.bind, pure, Except.pure]

section Initializing

def newSession (s : LocalScheduler) (side : Side) (nodes : InactiveJobNodeList) : ChildInterface :=
  let session : ChildInterface := { jobId := s.jobId, nodes := nodes, childIndex := s.childIndex side }
  if s.lastUpdateEpoch ≥ 0 then (session.handleBalancingUpdate s.lastUpdateEpoch s.lastUpdateVolume false).1
  else session

theorem newSession_kept (s : LocalScheduler) (side : Side) (nodes : InactiveJobNodeList) :
    (s.newSession side nodes).childIndex = s.childIndex side ∧ (s.newSession side nodes).childHasNodes = false ∧
      (nodes.Clean → (s.newSession side nodes).LostAtIndex) := by
  have hlost : nodes.Clean → ChildInterface.LostAtIndex
      { jobId := s.jobId, nodes := nodes, childIndex := s.childIndex side } :=
    fun hclean n hn hlost => absurd hlost (hclean n hn)
  simp only [newSession]
  split
  · have hkept := ChildInterface.handleBalancingUpdate_kept
      { jobId := s.jobId, nodes := nodes, childIndex := s.childIndex side } s.lastUpdateEpoch s.lastUpdateVolume false
    exact ⟨hkept.childIndex, hkept.childHasNodes, fun hclean => hkept.lostAtIndex (hlost hclean)⟩
  · exact ⟨rfl, rfl, hlost⟩

theorem openSession_ok {side : Side} (hnone : s.sessions side = none) (nodes : InactiveJobNodeList) :
    ∃ actions, (∀ a ∈ actions, a.inSession = true) ∧
      s.openSession side nodes = .ok ((s.setSession side (s.newSession side nodes)).log actions) := by
  simp only [openSession, newSession, hnone]
  split
  · refine ⟨_, ?_, rfl⟩
    intro a ha
    rcases List.mem_append.mp ha with ha | ha
    · exact ChildInterface.handleBalancingUpdate_inSession _ _ _ _ a ha
    · exact applyDirective_inSession _ _ a ha
  · exact ⟨[], by simp, by simp [LocalScheduler.log]⟩

theorem noteUpdate_frame (s : LocalScheduler) (update : JobSchedulingUpdate) :
    (s.noteUpdate update).sessions = s.sessions ∧ (s.noteUpdate update).suspending = s.suspending ∧
      (s.noteUpdate update).resuming = s.resuming ∧ (s.noteUpdate update).journal = s.journal ∧
      (s.noteUpdate update).rank = s.rank ∧ (s.noteUpdate update).index = s.index := by
  rw [noteUpdate]
  split
  · exact ⟨rfl, rfl, rfl, rfl, rfl, rfl⟩
  · exact ⟨rfl, rfl, rfl, rfl, rfl, rfl⟩

def opening (s : LocalScheduler) (update : JobSchedulingUpdate) (parentRank : Int) : LocalScheduler :=
  { (noteUpdate { s with parentRank := parentRank } update).log [.openSessions] with suspended := false }

theorem opening_frame (s : LocalScheduler) (update : JobSchedulingUpdate) (parentRank : Int) :
    (s.opening update parentRank).sessions = s.sessions ∧ (s.opening update parentRank).suspending = s.suspending ∧
      (s.opening update parentRank).resuming = s.resuming ∧
      (s.opening update parentRank).journal = s.journal ++ [.openSessions] ∧
      (s.opening update parentRank).rank = s.rank ∧ (s.opening update parentRank).index = s.index := by
  obtain ⟨h₁, h₂, h₃, h₄, h₅, h₆⟩ := noteUpdate_frame { s with parentRank := parentRank } update
  exact ⟨h₁, h₂, h₃, congrArg (· ++ _) h₄, h₅, h₆⟩

theorem initializeScheduling_eq (hpast : ¬(s.index > 0 ∧ update.epoch ≤ s.epochOfLastSuspension)) (parentRank : Int) :
    s.initializeScheduling update parentRank = (do
      let s₁ ← (s.opening update parentRank).openSession .left (update.split s.index).1
      s₁.openSession .right (update.split s.index).2) := by
  have hindex := (s.opening_frame update parentRank).2.2.2.2.2
  simp only [initializeScheduling, hpast, if_false]
  exact congrArg (fun i => (s.opening update parentRank).openSession .left (update.split i).1 >>= fun s₁ =>
    s₁.openSession .right (update.split i).2) hindex

theorem opened_both (hnone : ∀ side, s.sessions side = none)
    (hpast : ¬(s.index > 0 ∧ update.epoch ≤ s.epochOfLastSuspension)) (parentRank : Int) :
    ∃ s₁ l r a₁ a₂, (∀ a ∈ a₁, a.inSession = true) ∧ (∀ a ∈ a₂, a.inSession = true) ∧
      l = (s.opening update parentRank).newSession .left (update.split s.index).1 ∧
      s₁ = ((s.opening update parentRank).setSession .left l).log a₁ ∧
      r = s₁.newSession .right (update.split s.index).2 ∧
      s.initializeScheduling update parentRank = .ok ((s₁.setSession .right r).log a₂) := by
  obtain ⟨hsessions, _, _, _, _, _⟩ := s.opening_frame update parentRank
  rw [initializeScheduling_eq hpast]
  have hclosed : ∀ side, (s.opening update parentRank).sessions side = none := fun side => by rw [hsessions, hnone]
  obtain ⟨a₁, ha₁, hleft⟩ := openSession_ok (hclosed .left) (update.split s.index).1
  rw [hleft]
  have hright : (((s.opening update parentRank).setSession .left
      ((s.opening update parentRank).newSession .left (update.split s.index).1)).log a₁).sessions .right = none :=
    hclosed .right
  obtain ⟨a₂, ha₂, hboth⟩ := openSession_ok hright (update.split s.index).2
  exact ⟨_, _, _, a₁, a₂, ha₁, ha₂, rfl, rfl, rfl, hboth⟩

theorem opened_ok (hnone : ∀ side, s.sessions side = none) (hsuspending : s.suspending = false)
    (hresuming : s.resuming = false) (hpast : ¬(s.index > 0 ∧ update.epoch ≤ s.epochOfLastSuspension))
    (parentRank : Int) : ∃ s', s.initializeScheduling update parentRank = .ok s' ∧ Aligned s' ∧ s'.Quiet ∧
      (update.inactiveJobNodes.Clean → s.Recorded → s'.Recorded) ∧ s'.rank = s.rank ∧ s'.index = s.index := by
  obtain ⟨hsessions, hsusp, hres, hjournal, hrank, hindex⟩ := s.opening_frame update parentRank
  obtain ⟨s₁, l, r, a₁, a₂, ha₁, ha₂, hl, hs₁, hr, hboth⟩ := opened_both hnone hpast parentRank
  refine ⟨_, hboth, ?_⟩
  generalize ho : s.opening update parentRank = o at *
  have hactive : o.suspended = false := by rw [← ho]; rfl
  obtain ⟨hil, hnl, hll⟩ := hl.symm ▸ o.newSession_kept .left (update.split s.index).1
  obtain ⟨hir, hnr, hlr⟩ := hr.symm ▸ s₁.newSession_kept .right (update.split s.index).2
  subst hs₁
  have hpair : ∀ {P : Side → ChildInterface → Prop}, P .left l → P .right r →
      ∀ side c, ((((o.setSession .left l).log a₁).setSession .right r).log a₂).sessions side = some c → P side c := by
    intro P hpl hpr side c hc
    cases side with
    | left => obtain rfl : l = c := Option.some.inj hc; exact hpl
    | right => obtain rfl : r = c := Option.some.inj hc; exact hpr
  refine ⟨⟨?_, ?_, ?_, ?_⟩, ?_, ?_, hrank, hindex⟩
  · intro side
    exact (congrArg (! ·) hactive).symm ▸ (by cases side <;> rfl)
  · intro h
    cases (hsusp.trans hsuspending).symm.trans h
  · intro h
    cases (hres.trans hresuming).symm.trans h
  · exact hpair hil hir
  · exact hpair (P := fun _ c => c.childHasNodes = false) hnl hnr
  · intro hclean hrec
    have hsplit : ∀ nodes, nodes = (update.split s.index).1 ∨ nodes = (update.split s.index).2 → nodes.Clean := by
      rintro nodes (rfl | rfl) n hn
      · exact hclean n (JobSchedulingUpdate.mem_split (Or.inl hn))
      · exact hclean n (JobSchedulingUpdate.mem_split (Or.inr hn))
    have hjournal' : ((((o.setSession .left l).log a₁).setSession .right r).log a₂).journal =
        s.journal ++ [.openSessions] ++ a₁ ++ a₂ := by
      rw [← hjournal]
      rfl
    refine ⟨hpair (P := fun _ c => c.LostAtIndex) (hll (hsplit _ (Or.inl rfl))) (hlr (hsplit _ (Or.inr rfl))), ?_, ?_⟩
    · rw [hjournal', List.foldl_append, List.foldl_append, List.foldl_append, hrec.phases,
        foldl_phase_inSession ha₂, foldl_phase_inSession ha₁]
      exact (congrArg (fun b => some (!b)) hactive).symm ▸ (by cases s.suspended <;> rfl)
    · intro destination returned hmem
      rw [hjournal'] at hmem
      have hold : Action.returnNodes destination returned ∈ s.journal := by
        rcases List.mem_append.mp hmem with hmem | hmem
        · rcases List.mem_append.mp hmem with hmem | hmem
          · rcases List.mem_append.mp hmem with hmem | hmem
            · exact hmem
            · cases List.mem_singleton.mp hmem
          · cases ha₁ _ hmem
        · cases ha₂ _ hmem
      obtain ⟨n, hn, hnr, hni⟩ := hrec.own destination returned hold
      exact ⟨n, hn, hnr.trans hrank.symm, hni.trans hindex.symm⟩

theorem opened_sessions (hnone : ∀ side, s.sessions side = none)
    (hpast : ¬(s.index > 0 ∧ update.epoch ≤ s.epochOfLastSuspension)) (parentRank : Int) :
    ∃ s' l r, s.initializeScheduling update parentRank = .ok s' ∧ l.index = s.index ∧ r.index = s.index ∧
      s'.sessions .left = some (newSession l .left (update.split s.index).1) ∧
      s'.sessions .right = some (newSession r .right (update.split s.index).2) := by
  obtain ⟨_, _, _, _, _, hindex⟩ := s.opening_frame update parentRank
  obtain ⟨s₁, l, r, a₁, a₂, _, _, hl, hs₁, hr, hboth⟩ := opened_both hnone hpast parentRank
  refine ⟨_, s.opening update parentRank, s₁, hboth, hindex, ?_, ?_, ?_⟩
  · rw [hs₁]
    exact hindex
  · rw [← hl, hs₁]
    rfl
  · rw [← hr]
    rfl

/-- Initializing a scheduler that has no session, with an update of the past or not. -/
theorem initializeScheduling_ok (h : Aligned s) (hnone : ∀ side, s.sessions side = none) (parentRank : Int) :
    ∃ s', s.initializeScheduling update parentRank = .ok s' ∧ Aligned s' ∧ s'.Quiet ∧
      (update.inactiveJobNodes.Clean → s.Recorded → s'.Recorded) ∧ s'.rank = s.rank ∧ s'.index = s.index := by
  have hclosed := h.suspended_of_none hnone
  have hsuspending : s.suspending = false := by
    by_contra hne
    have hopen := h.suspending (by simpa using hne)
    rw [hclosed] at hopen
    cases hopen
  have hresuming : s.resuming = false := by
    by_contra hne
    have hboth := (h.resuming (by simpa using hne)).2
    rw [hsuspending] at hboth
    cases hboth
  by_cases hpast : s.index > 0 ∧ update.epoch ≤ s.epochOfLastSuspension
  · refine ⟨_, by simp only [initializeScheduling, hpast, and_self, if_true]; rfl, ?_⟩
    have hrec : s.Recorded → Recorded { s with parentRank := parentRank } := fun hr => ⟨hr.lost, hr.phases, hr.own⟩
    refine ⟨⟨h.sessions, h.suspending, h.resuming, h.indices⟩, ?_, fun _ hr => (hrec hr).log ?_, rfl, rfl⟩
    · intro side c hc
      cases (hnone side).symm.trans hc
    · intro a ha
      obtain rfl := List.mem_singleton.mp ha
      rfl
  · exact opened_ok hnone hsuspending hresuming hpast parentRank

end Initializing

theorem resumeAsRoot_ok (h : Aligned s) (hresuming : s.resuming = true) (hquiet : s.Quiet) :
    ∃ s', s.resumeAsRoot = .ok s' ∧ Settled s s' := by
  obtain ⟨hroot, hsuspending⟩ := h.resuming hresuming
  have hactive := h.suspending hsuspending
  obtain ⟨b, hb, hiff⟩ := canResumeAsRoot_ok h
  obtain rfl : b = true := hiff.mpr ⟨hresuming, hquiet⟩
  obtain ⟨nodes, hnodes, _⟩ := mergedNodes_ok h hactive
  let update : JobSchedulingUpdate :=
    { epoch := max s.lastUpdateEpoch s.epochOfLastSuspension, volume := s.lastUpdateVolume,
      inactiveJobNodes := cleanUpStatuses nodes }
  let closed : LocalScheduler := { s.closeSessions with resuming := false, suspending := false }
  obtain ⟨s', hs', haligned, hquiet', hrec, hrank, hindex⟩ := @opened_ok closed update (fun side => rfl) rfl rfl
    (fun hpast => hpast.1.ne' hroot) s.parentRank
  refine ⟨s', ?_, haligned, Or.inr ⟨hquiet, hquiet'⟩, fun hr => ?_, hrank, hindex⟩
  · simp only [resumeAsRoot, hb, hnodes, bind, Except.bind]
    exact hs'
  · exact hrec (clean_cleanUpStatuses nodes) ⟨fun side c hc => (by cases hc), hr.phases, hr.own⟩

theorem returnIfPossible_ok (h : Aligned s) : ∃ s', s.returnIfPossible = .ok s' ∧ Settled s s' := by
  obtain ⟨b, hb, hiff⟩ := canReturnInactiveJobNodes_ok h
  cases b with
  | false => exact ⟨s, by rw [returnIfPossible, hb]; rfl, Settled.refl h⟩
  | true =>
      obtain ⟨hroot, hsuspending, hquiet⟩ := hiff.mp rfl
      obtain ⟨s', hs', hsettled⟩ := returnInactiveJobNodesToParent_ok h hsuspending hroot hquiet
      exact ⟨s', by rw [returnIfPossible, hb]; exact hs', hsettled⟩

theorem resumeIfPossible_ok (h : Aligned s) : ∃ s', s.resumeIfPossible = .ok s' ∧ Settled s s' := by
  obtain ⟨b, hb, hiff⟩ := canResumeAsRoot_ok h
  cases b with
  | false => exact ⟨s, by rw [resumeIfPossible, hb]; rfl, Settled.refl h⟩
  | true =>
      obtain ⟨hresuming, hquiet⟩ := hiff.mp rfl
      obtain ⟨s', hs', hsettled⟩ := resumeAsRoot_ok h hresuming hquiet
      exact ⟨s', by rw [resumeIfPossible, hb]; exact hs', hsettled⟩

theorem settle_ok (h : Aligned s) : ∃ s', s.settle = .ok s' ∧ Settled s s' := by
  obtain ⟨s₁, hs₁, h₁⟩ := returnIfPossible_ok h
  obtain ⟨s₂, hs₂, h₂⟩ := resumeIfPossible_ok h₁.aligned
  exact ⟨s₂, by rw [settle, hs₁]; exact hs₂, h₁.trans h₂⟩

theorem beginSuspension_ok (h : Aligned s) (epoch : Int) : ∃ s', s.beginSuspension epoch = .ok s' ∧ Settled s s' := by
  cases hclosed : s.suspended with
  | true =>
      refine ⟨{ s with epochOfLastSuspension := s.suspensionEpoch epoch }, by simp [beginSuspension, hclosed], ?_⟩
      exact ⟨⟨h.sessions, h.suspending, h.resuming, h.indices⟩, Or.inl rfl,
        fun hr => ⟨hr.lost, hr.phases, hr.own⟩, rfl, rfl⟩
  | false =>
      have haligned : Aligned { s with epochOfLastSuspension := s.suspensionEpoch epoch, suspending := true } :=
        ⟨h.sessions, fun _ => hclosed, fun hr => ⟨(h.resuming hr).1, rfl⟩, h.indices⟩
      have hsettled : Settled s { s with epochOfLastSuspension := s.suspensionEpoch epoch, suspending := true } :=
        ⟨haligned, Or.inl rfl, fun hr => ⟨hr.lost, hr.phases, hr.own⟩, rfl, rfl⟩
      obtain ⟨s', hs', hsettled'⟩ := returnIfPossible_ok haligned
      exact ⟨s', by rw [beginSuspension, if_neg (by simp [hclosed])]; exact hs', hsettled.trans hsettled'⟩

theorem beginResumptionAsRoot_ok (h : Aligned s) (hroot : s.index = 0) (hsuspending : s.suspending = true) :
    ∃ s', s.beginResumptionAsRoot = .ok s' ∧ Settled s s' := by
  have hactive := h.suspending hsuspending
  have haligned : Aligned { s with resuming := true } :=
    ⟨h.sessions, h.suspending, fun _ => ⟨hroot, hsuspending⟩, h.indices⟩
  have hsettled : Settled s { s with resuming := true } :=
    ⟨haligned, Or.inl rfl, fun hr => ⟨hr.lost, hr.phases, hr.own⟩, rfl, rfl⟩
  obtain ⟨s', hs', hsettled'⟩ := resumeIfPossible_ok haligned
  exact ⟨s', by simpa [beginResumptionAsRoot, hroot, hsuspending, hactive] using hs', hsettled.trans hsettled'⟩

structure Handled (s s' : LocalScheduler) : Prop where
  aligned : Aligned s'
  recorded : s.Recorded → s'.Recorded
  rank : s'.rank = s.rank
  index : s'.index = s.index

theorem Handled.refl (h : Aligned s) : Handled s s := ⟨h, id, rfl, rfl⟩

theorem Handled.trans {s₁ s₂ : LocalScheduler} (h₁ : Handled s s₁) (h₂ : Handled s₁ s₂) : Handled s s₂ :=
  ⟨h₂.aligned, h₂.recorded ∘ h₁.recorded, h₂.rank.trans h₁.rank, h₂.index.trans h₁.index⟩

theorem Settled.handled (h : Settled s s') : Handled s s' := ⟨h.aligned, h.recorded, h.rank, h.index⟩

theorem apply_handled (h : Aligned s) {side : Side} {c : ChildInterface} (hc : s.sessions side = some c)
    {result : ChildInterface × List Action × MsgDirective} (hkept : c.Kept result.1)
    (ha : ∀ a ∈ result.2.1, a.inSession = true) : Handled s (s.apply side result) :=
  ⟨h.apply hc hkept, fun hr => hr.apply (hkept.lostAtIndex (hr.lost side c hc)) ha, rfl, rfl⟩

section Updating

def hasChild (hasLeftChild hasRightChild : Bool) : Side → Bool
  | .left => hasLeftChild
  | .right => hasRightChild

theorem updateSession_handled (h : Aligned s) (epoch volume : Int) (side : Side) (b : Bool) :
    Handled s (s.updateSession epoch volume side b) := by
  rw [updateSession]
  cases hc : s.sessions side with
  | none => exact Handled.refl h
  | some c =>
      exact apply_handled h hc (c.handleBalancingUpdate_kept epoch volume b)
        (c.handleBalancingUpdate_inSession epoch volume b)

theorem sessions_updateSession (s : LocalScheduler) (epoch volume : Int) (side side' : Side) (b : Bool) :
    (s.updateSession epoch volume side b).sessions side' =
      if side' = side then (s.sessions side).map fun c => (c.handleBalancingUpdate epoch volume b).1
      else s.sessions side' := by
  rw [updateSession]
  cases hc : s.sessions side with
  | none =>
      by_cases heq : side' = side
      · simp [heq, hc]
      · simp [heq]
  | some c => rw [sessions_apply, Option.map_some]

/-- A balancing update that is not newer, or that meets a scheduler on its way
out, leaves the sessions; any other is told to both of them before the
scheduler may go out itself. -/
theorem updateBalancing_ok (h : Aligned s) (epoch volume : Int) (hasLeftChild hasRightChild : Bool) :
    ∃ s₁ s', s.updateBalancing epoch volume hasLeftChild hasRightChild = .ok s' ∧ Handled s s₁ ∧ Settled s₁ s' ∧
      (s₁.sessions = s.sessions ∨ s.lastUpdateEpoch < epoch ∧ s.suspending = false ∧ s.suspended = false ∧
        ∀ side, s₁.sessions side = (s.sessions side).map fun c =>
          (c.handleBalancingUpdate epoch volume (hasChild hasLeftChild hasRightChild side)).1) := by
  by_cases hold : s.lastUpdateEpoch ≥ epoch
  · exact ⟨s, s, by simp [updateBalancing, hold], Handled.refl h, Settled.refl h, Or.inl rfl⟩
  · have hnoted : Handled s { s with lastUpdateEpoch := epoch, lastUpdateVolume := volume } :=
      ⟨⟨h.sessions, h.suspending, h.resuming, h.indices⟩, fun hr => ⟨hr.lost, hr.phases, hr.own⟩, rfl, rfl⟩
    cases hout : s.suspending || s.suspended with
    | true =>
        refine ⟨_, _, ?_, hnoted, Settled.refl hnoted.aligned, Or.inl rfl⟩
        simp [updateBalancing, hold, hout]
    | false =>
        obtain ⟨hsuspending, hsuspended⟩ := Bool.or_eq_false_iff.mp hout
        generalize hn : ({ s with lastUpdateEpoch := epoch, lastUpdateVolume := volume } : LocalScheduler) = noted
          at hnoted
        have hleft := updateSession_handled hnoted.aligned epoch volume .left hasLeftChild
        have hright := updateSession_handled hleft.aligned epoch volume .right hasRightChild
        have hsessions : ∀ side, ((noted.updateSession epoch volume .left hasLeftChild).updateSession epoch volume
            .right hasRightChild).sessions side = (s.sessions side).map fun c =>
              (c.handleBalancingUpdate epoch volume (hasChild hasLeftChild hasRightChild side)).1 := by
          intro side
          rw [← hn]
          cases side with
          | left => simp [sessions_updateSession, hasChild]
          | right => simp [sessions_updateSession, hasChild]
        have heq : s.updateBalancing epoch volume hasLeftChild hasRightChild =
            let s₁ := (noted.updateSession epoch volume .left hasLeftChild).updateSession epoch volume .right
              hasRightChild
            if volume ≤ s₁.index ∧ s₁.index > 0 then s₁.beginSuspension epoch else .ok s₁ := by
          simp [updateBalancing, hold, hout, ← hn]
        rw [heq]
        by_cases hshrink : volume ≤ ((noted.updateSession epoch volume .left hasLeftChild).updateSession epoch volume
            .right hasRightChild).index ∧ ((noted.updateSession epoch volume .left hasLeftChild).updateSession epoch
            volume .right hasRightChild).index > 0
        · obtain ⟨s', hs', hsettled⟩ := beginSuspension_ok hright.aligned epoch
          exact ⟨_, s', by simp only [hshrink, and_self, if_true, hs'], (hnoted.trans hleft).trans hright, hsettled,
            Or.inr ⟨by omega, hsuspending, hsuspended, hsessions⟩⟩
        · exact ⟨_, _, by simp only [hshrink, if_false], (hnoted.trans hleft).trans hright,
            Settled.refl hright.aligned, Or.inr ⟨by omega, hsuspending, hsuspended, hsessions⟩⟩

end Updating

theorem handleRejectReactivation_handled (h : Aligned s) (epoch : Int) (index : Nat) (lost hasChild : Bool) :
    Handled s (s.handleRejectReactivation epoch index lost hasChild) := by
  rw [handleRejectReactivation]
  cases hfind : s.getSessionByChildIndex index with
  | none => exact Handled.refl h
  | some found =>
      obtain ⟨hc, _⟩ := findSession_some hfind
      exact apply_handled h hc (ChildInterface.handleRejectionOfPotentialChild_kept _ _ _ _ _)
        (ChildInterface.handleRejectionOfPotentialChild_inSession _ _ _ _ _)

theorem handleChildJoining_handled (h : Aligned s) (source epoch : Int) (index : Nat) :
    Handled s (s.handleChildJoining source epoch index) := by
  rw [handleChildJoining]
  cases hfind : s.getSessionByChildIndex index with
  | none => exact Handled.refl h
  | some found =>
      obtain ⟨side, c⟩ := found
      obtain ⟨hc, _⟩ := findSession_some hfind
      have hkept := c.handleChildJoining_kept source epoch
      refine ⟨(h.setSession hc hkept.childIndex).log _, fun hr => ?_, rfl, rfl⟩
      exact (hr.setSession (hkept.lostAtIndex (c.joined_lostAtIndex source (hr.lost side c hc)))).log
        (c.handleChildJoining_inSession source epoch)

theorem handleNodeFreed_handled (h : Aligned s) (rank epoch : Int) (index : Nat) :
    Handled s (s.handleNodeFreed rank epoch index) where
  aligned := by
    refine ⟨?_, h.suspending, h.resuming, ?_⟩
    · intro side
      exact Option.isSome_map.trans (h.sessions side)
    · intro side c hc
      obtain ⟨d, hd, rfl⟩ := Option.map_eq_some_iff.mp hc
      exact (d.removeNode_kept rank epoch index).childIndex.trans (h.indices side d hd)
  recorded := by
    intro hr
    refine ⟨?_, hr.phases, hr.own⟩
    intro side c hc
    obtain ⟨d, hd, rfl⟩ := Option.map_eq_some_iff.mp hc
    exact (d.removeNode_kept rank epoch index).lostAtIndex (hr.lost side d hd)
  rank := rfl
  index := rfl

theorem resetRole_handled (h : Aligned s) (hcommit : s.canCommit = true) : Handled s s.resetRole where
  aligned := by
    have hclosed : s.suspended = true := hcommit
    refine ⟨?_, h.suspending, h.resuming, fun side c hc => ?_⟩
    · intro side
      exact (congrArg (! ·) hclosed).symm
    · cases hc
  recorded := by
    intro hr
    refine ⟨fun side c hc => ?_, hr.phases, hr.own⟩
    cases hc
  rank := rfl
  index := rfl

theorem addReturnedNodes_aligned (h : Aligned s) (source : Int) (nodes : InactiveJobNodeList) :
    Aligned (s.addReturnedNodes source nodes) := by
  rw [addReturnedNodes]
  cases hfind : s.getSessionByChildRank source with
  | none => exact h
  | some found =>
      obtain ⟨hc, _⟩ := findSession_some hfind
      exact h.setSession hc rfl

theorem addReturnedNodes_recorded (hr : Recorded s) (source : Int) {nodes : InactiveJobNodeList}
    (hclean : nodes.Clean) : Recorded (s.addReturnedNodes source nodes) := by
  rw [addReturnedNodes]
  cases hfind : s.getSessionByChildRank source with
  | none => exact hr
  | some found =>
      obtain ⟨hc, _⟩ := findSession_some hfind
      exact hr.setSession (ChildInterface.addJobNodesFromSuspendedChild_lostAtIndex (hr.lost _ _ hc) hclean)

theorem addReturnedNodes_frame (s : LocalScheduler) (source : Int) (nodes : InactiveJobNodeList) :
    (s.addReturnedNodes source nodes).rank = s.rank ∧ (s.addReturnedNodes source nodes).index = s.index := by
  rw [addReturnedNodes]
  cases s.getSessionByChildRank source with
  | none => exact ⟨rfl, rfl⟩
  | some found => exact ⟨rfl, rfl⟩

def CleanCall : Call → Prop
  | .initializeScheduling update _ => update.inactiveJobNodes.Clean
  | .handleInitialize _ update => update.inactiveJobNodes.Clean
  | .handleReturn _ nodes => nodes.Clean
  | _ => True

theorem handleInitialize_ok (h : Aligned s) (hnone : ∀ side, s.sessions side = none) (source : Int) :
    ∃ s₁ s', s.handleInitialize source update = .ok s' ∧ Settled s₁ s' ∧ s₁.Quiet ∧
      (update.inactiveJobNodes.Clean → s.Recorded → s₁.Recorded) ∧ s₁.rank = s.rank ∧ s₁.index = s.index := by
  obtain ⟨s₁, hs₁, haligned, hquiet, hrec, hrank, hindex⟩ := initializeScheduling_ok h hnone source
  obtain ⟨s', hs', hsettled⟩ := settle_ok haligned
  exact ⟨s₁, s', by rw [handleInitialize, hs₁]; exact hs', hsettled, hquiet, hrec, hrank, hindex⟩

/-- Every permitted call runs through and keeps the flags and sessions aligned. -/
theorem step_ok (h : Aligned s) {call : Call} (hpermitted : s.Permitted call) :
    ∃ s', s.step call = .ok s' ∧ Aligned s' ∧ (CleanCall call → s.Recorded → s'.Recorded) ∧
      s'.rank = s.rank ∧ s'.index = s.index := by
  cases call with
  | initializeScheduling update parentRank =>
      obtain ⟨s', hs', haligned, _, hrec, hframe⟩ := initializeScheduling_ok h hpermitted parentRank
      exact ⟨s', hs', haligned, hrec, hframe⟩
  | updateBalancing epoch volume hasLeftChild hasRightChild =>
      obtain ⟨s₁, s', hs', hhandled, hsettled, _⟩ := updateBalancing_ok h epoch volume hasLeftChild hasRightChild
      have hall := hhandled.trans hsettled.handled
      exact ⟨s', hs', hall.aligned, fun _ => hall.recorded, hall.rank, hall.index⟩
  | beginSuspension epoch =>
      obtain ⟨s', hs', hsettled⟩ := beginSuspension_ok h epoch
      exact ⟨s', hs', hsettled.aligned, fun _ => hsettled.recorded, hsettled.rank, hsettled.index⟩
  | handleInitialize source update =>
      obtain ⟨s₁, s', hs', hsettled, _, hrec, hrank, hindex⟩ := handleInitialize_ok h hpermitted source
      exact ⟨s', hs', hsettled.aligned, fun hclean hr => hsettled.recorded (hrec hclean hr),
        hsettled.rank.trans hrank, hsettled.index.trans hindex⟩
  | handleReturn source nodes =>
      obtain ⟨s', hs', hsettled⟩ := settle_ok (addReturnedNodes_aligned h source nodes)
      obtain ⟨hrank, hindex⟩ := s.addReturnedNodes_frame source nodes
      exact ⟨s', hs', hsettled.aligned, fun hclean hr => hsettled.recorded (addReturnedNodes_recorded hr source hclean),
        hsettled.rank.trans hrank, hsettled.index.trans hindex⟩
  | handleRejectReactivation epoch index lost hasChild =>
      have hhandled := handleRejectReactivation_handled h epoch index lost hasChild
      exact ⟨_, rfl, hhandled.aligned, fun _ => hhandled.recorded, hhandled.rank, hhandled.index⟩
  | handleChildJoining source epoch index =>
      have hhandled := handleChildJoining_handled h source epoch index
      exact ⟨_, rfl, hhandled.aligned, fun _ => hhandled.recorded, hhandled.rank, hhandled.index⟩
  | handleNodeFreed rank epoch index =>
      have hhandled := handleNodeFreed_handled h rank epoch index
      exact ⟨_, rfl, hhandled.aligned, fun _ => hhandled.recorded, hhandled.rank, hhandled.index⟩
  | beginResumptionAsRoot =>
      obtain ⟨s', hs', hsettled⟩ := beginResumptionAsRoot_ok h hpermitted.1 hpermitted.2
      exact ⟨s', hs', hsettled.aligned, fun _ => hsettled.recorded, hsettled.rank, hsettled.index⟩
  | resetRole =>
      have hhandled := resetRole_handled h hpermitted
      exact ⟨_, rfl, hhandled.aligned, fun _ => hhandled.recorded, hhandled.rank, hhandled.index⟩

end Mallob.LocalScheduler
