import Mallob.SchedulerLifeCycle

namespace Mallob.ReturnedNodes

open LocalScheduler Runs

structure Parent where
  scheduler : LocalScheduler
  joined : List (Int × Nat)

def Parent.joinedAfter (t : Parent) : Call → List (Int × Nat)
  | .handleChildJoining source _ index =>
    if (t.scheduler.getSessionByChildIndex index).isSome then t.joined.insert (source, index) else t.joined
  | .handleReturn source _ => t.joined.filter fun child => child.1 ≠ source
  | _ => t.joined

def Parent.step (t : Parent) (call : Call) : Except Fault Parent :=
  (t.scheduler.step call).map fun s => ⟨s, t.joinedAfter call⟩

def Parent.Delivers (t : Parent) : Call → Prop
  | .handleReturn source _ => ∃ index, (source, index) ∈ t.joined
  | _ => True

def assigned (s : LocalScheduler) (call : Call) (side : Side) (c : ChildInterface) : Option Int :=
  match call with
  | .updateBalancing epoch volume hasLeftChild hasRightChild =>
    if s.lastUpdateEpoch < epoch ∧ s.suspending = false ∧ s.suspended = false then
      c.queriedByUpdate epoch volume (hasChild hasLeftChild hasRightChild side)
    else none
  | .handleRejectReactivation epoch index lost hasChild =>
    if c.childIndex = index then c.queriedByRejection epoch lost hasChild (s.suspended || s.suspending) else none
  | .handleChildJoining source _ index => if c.childIndex = index then some source else none
  | _ => none

def joins : Call → Bool
  | .handleChildJoining _ _ _ => true
  | _ => false

/-- The rank of a child that holds nodes is not overwritten, and no rank is
written such that the left session hides a right child. -/
def Safe (s : LocalScheduler) (call : Call) : Prop :=
  (∀ side c rank, s.sessions side = some c → assigned s call side c = some rank → c.childHasNodes = true →
    rank = c.childRank) ∧
  ∀ l r, s.sessions .left = some l → s.sessions .right = some r →
    (∀ rank, assigned s call .left l = some rank → r.childHasNodes = true → rank ≠ r.childRank) ∧
    (∀ rank, assigned s call .right r = some rank → joins call = true → rank ≠ l.childRank)

variable {s s' : LocalScheduler} {joined : List (Int × Nat)} {call : Call}

structure Known (s : LocalScheduler) (joined : List (Int × Nat)) : Prop where
  session : ∀ x i, (x, i) ∈ joined → ∃ side c, s.sessions side = some c ∧ c.childIndex = i ∧ c.childRank = x ∧
    c.childHasNodes = true ∧ (side = .right → ∀ l, s.sessions .left = some l → l.childRank ≠ x)
  child : ∀ side c, s.sessions side = some c → c.childHasNodes = true → (c.childRank, c.childIndex) ∈ joined

theorem Known.eq_nil_of_quiet (h : Known s joined) (hquiet : s.Quiet) : joined = [] := by
  rw [List.eq_nil_iff_forall_not_mem]
  rintro ⟨x, i⟩ hmem
  obtain ⟨side, c, hc, _, _, hnodes, _⟩ := h.session x i hmem
  cases (hquiet side c hc).symm.trans hnodes

theorem known_of_quiet (hquiet : s.Quiet) : Known s [] where
  session := fun x i h => by cases h
  child := fun side c hc hnodes => by cases (hquiet side c hc).symm.trans hnodes

theorem Known.quiet_of_nil (h : Known s []) : s.Quiet := by
  intro side c hc
  by_contra hnodes
  cases h.child side c hc (by simpa using hnodes)

theorem Known.settled (h : Known s joined) (hs : Settled s s') : Known s' joined := by
  rcases hs.sessions with heq | ⟨hquiet, hquiet'⟩
  · refine ⟨?_, ?_⟩
    · rw [heq]
      exact h.session
    · rw [heq]
      exact h.child
  · obtain rfl := h.eq_nil_of_quiet hquiet
    exact known_of_quiet hquiet'

/-- Calls that only write candidates keep what is known, where they are safe. -/
theorem Known.candidates (h : Known s joined) (hsafe : Safe s call) (hback : ∀ side, s.sessions side = none →
      s'.sessions side = none)
    (hsessions : ∀ side c, s.sessions side = some c → ∃ c', s'.sessions side = some c' ∧
      c'.childIndex = c.childIndex ∧ c'.childHasNodes = c.childHasNodes ∧
      c'.childRank = (assigned s call side c).getD c.childRank) : Known s' joined := by
  have hrank : ∀ side c (c' : ChildInterface), s.sessions side = some c → c.childHasNodes = true →
      c'.childRank = (assigned s call side c).getD c.childRank → c'.childRank = c.childRank := by
    intro side c c' hc hnodes hr
    cases ha : assigned s call side c with
    | none => rw [hr, ha]; rfl
    | some rank =>
        rw [hr, ha]
        exact hsafe.1 side c rank hc ha hnodes
  refine ⟨?_, ?_⟩
  · intro x i hmem
    obtain ⟨side, c, hc, hindex, hcx, hnodes, hleft⟩ := h.session x i hmem
    obtain ⟨c', hc', hindex', hnodes', hr⟩ := hsessions side c hc
    refine ⟨side, c', hc', hindex'.trans hindex, (hrank side c c' hc hnodes hr).trans hcx, hnodes'.trans hnodes, ?_⟩
    rintro rfl l' hl'
    cases hl : s.sessions .left with
    | none => cases (hback .left hl).symm.trans hl'
    | some l =>
        obtain ⟨l'', hl'', _, _, hrl⟩ := hsessions .left l hl
        obtain rfl := Option.some.inj (hl''.symm.trans hl')
        cases ha : assigned s call .left l with
        | none =>
            rw [hrl, ha]
            exact hleft rfl l hl
        | some rank =>
            rw [hrl, ha, ← hcx]
            exact (hsafe.2 l c hl hc).1 rank ha hnodes
  · intro side c' hc' hnodes'
    cases hc : s.sessions side with
    | none => cases (hback side hc).symm.trans hc'
    | some c =>
        obtain ⟨c'', hc'', hindex, hnodes, hr⟩ := hsessions side c hc
        obtain rfl := Option.some.inj (hc''.symm.trans hc')
        have hold := hnodes.symm.trans hnodes'
        rw [hindex, hrank side c c'' hc hold hr]
        exact h.child side c hc hold

theorem getSessionByChildIndex_eq (h : Aligned s) {side : Side} {c : ChildInterface} (hc : s.sessions side = some c) :
    s.getSessionByChildIndex c.childIndex = some (side, c) := by
  rw [getSessionByChildIndex, findSession]
  cases side with
  | left => simp [hc, Option.filter]
  | right =>
      have hleft : (s.sessions .left).filter (fun session => session.childIndex = c.childIndex) = none := by
        rw [Option.filter_eq_none_iff]
        intro l hl
        rw [decide_eq_true_eq, h.indices .left l hl, h.indices .right c hc]
        exact s.childIndex_ne
      rw [hleft]
      simp [hc, Option.filter]

theorem getSessionByChildRank_eq {side : Side} {c : ChildInterface} (hc : s.sessions side = some c)
    (hleft : side = .right → ∀ l, s.sessions .left = some l → l.childRank ≠ c.childRank) :
    s.getSessionByChildRank c.childRank = some (side, c) := by
  rw [getSessionByChildRank, findSession]
  cases side with
  | left => simp [hc, Option.filter]
  | right =>
      have hnone : (s.sessions .left).filter (fun session => session.childRank = c.childRank) = none := by
        rw [Option.filter_eq_none_iff]
        intro l hl
        rw [decide_eq_true_eq]
        exact hleft rfl l hl
      rw [hnone]
      simp [hc, Option.filter]

/-- The returned nodes of a known child go into the session it joined under. -/
theorem Known.addReturnedNodes_eq (h : Known s joined) {source : Int} {index : Nat} (hmem : (source, index) ∈ joined)
    (nodes : InactiveJobNodeList) : ∃ side c, s.sessions side = some c ∧ c.childIndex = index ∧
      c.childRank = source ∧ (side = .right → ∀ l, s.sessions .left = some l → l.childRank ≠ source) ∧
      s.addReturnedNodes source nodes = s.setSession side (c.addJobNodesFromSuspendedChild nodes) := by
  obtain ⟨side, c, hc, hindex, rfl, _, hleft⟩ := h.session source index hmem
  refine ⟨side, c, hc, hindex, rfl, hleft, ?_⟩
  rw [addReturnedNodes, getSessionByChildRank_eq hc hleft]

theorem Known.returned (h : Known s joined) (haligned : Aligned s) {source : Int} {index : Nat}
    (hmem : (source, index) ∈ joined) (nodes : InactiveJobNodeList) :
    Known (s.addReturnedNodes source nodes) (joined.filter fun child => child.1 ≠ source) := by
  obtain ⟨side, c, hc, hindex, hsource, hleft, heq⟩ := h.addReturnedNodes_eq hmem nodes
  have hother : ∀ side' d, s.sessions side' = some d → side' ≠ side → d.childHasNodes = true →
      d.childRank ≠ source := by
    intro side' d hd hne hnodes hsame
    obtain ⟨side'', e, he, hei, her, _, hel⟩ := h.session d.childRank d.childIndex (h.child side' d hd hnodes)
    obtain rfl := haligned.side_eq he hd hei
    cases side with
    | left => cases side'' with
      | left => exact hne rfl
      | right => exact hel rfl c hc (hsource.trans hsame.symm)
    | right => cases side'' with
      | left => exact hleft rfl d hd hsame
      | right => exact hne rfl
  rw [heq]
  refine ⟨?_, ?_⟩
  · intro x i hmem'
    obtain ⟨hmem', hx⟩ := List.mem_filter.mp hmem'
    have hx : x ≠ source := of_decide_eq_true hx
    obtain ⟨side', d, hd, hdi, hdx, hnodes, hl⟩ := h.session x i hmem'
    have hne : side' ≠ side := by
      rintro rfl
      obtain rfl := Option.some.inj (hc.symm.trans hd)
      exact hx (hdx.symm.trans hsource)
    refine ⟨side', d, ?_, hdi, hdx, hnodes, ?_⟩
    · rw [sessions_setSession, if_neg hne, hd]
    · rintro rfl l hl'
      rw [sessions_setSession] at hl'
      split at hl'
      · obtain rfl := Option.some.inj hl'
        exact fun hsame => hx (hsame.symm.trans hsource)
      · exact hl rfl l hl'
  · intro side' d hd hnodes
    rw [sessions_setSession] at hd
    split at hd
    · obtain rfl := Option.some.inj hd
      cases hnodes
    · next hne =>
        refine List.mem_filter.mpr ⟨h.child side' d hd hnodes, ?_⟩
        exact decide_eq_true (hother side' d hd hne hnodes)

theorem Known.joining (h : Known s joined) (haligned : Aligned s) {source epoch : Int} {index : Nat} {side : Side}
    {c : ChildInterface} (hc : s.sessions side = some c) (hindex : c.childIndex = index)
    (hsafe : Safe s (.handleChildJoining source epoch index)) :
    Known (s.handleChildJoining source epoch index) (joined.insert (source, index)) := by
  have hassigned : assigned s (.handleChildJoining source epoch index) side c = some source := by
    simp [assigned, hindex]
  have hkept := c.handleChildJoining_kept source epoch
  have hnew : ∀ side', (s.handleChildJoining source epoch index).sessions side' =
      if side' = side then some (c.handleChildJoining source epoch).1 else s.sessions side' := by
    intro side'
    rw [LocalScheduler.handleChildJoining, ← hindex, getSessionByChildIndex_eq haligned hc]
    exact sessions_setSession s side side' _
  have hsame : c.childHasNodes = true → source = c.childRank := hsafe.1 side c source hc hassigned
  refine ⟨?_, ?_⟩
  · intro x i hmem
    rcases List.mem_insert_iff.mp hmem with heq | hmem
    · obtain ⟨rfl, rfl⟩ := Prod.mk.inj heq
      refine ⟨side, (c.handleChildJoining x epoch).1, by rw [hnew, if_pos rfl], hkept.childIndex.trans hindex,
        c.handleChildJoining_childRank x epoch, hkept.childHasNodes, ?_⟩
      rintro rfl l hl
      rw [hnew, if_neg (by decide)] at hl
      exact ((hsafe.2 l c hl hc).2 x hassigned rfl).symm
    · obtain ⟨side', d, hd, hdi, hdx, hnodes, hl⟩ := h.session x i hmem
      by_cases hside : side' = side
      · subst hside
        obtain rfl := Option.some.inj (hc.symm.trans hd)
        have hx : source = x := (hsame hnodes).trans hdx
        subst hx
        refine ⟨side', (c.handleChildJoining source epoch).1, by rw [hnew, if_pos rfl], hkept.childIndex.trans hdi,
          c.handleChildJoining_childRank source epoch, hkept.childHasNodes, ?_⟩
        rintro rfl l hl'
        rw [hnew, if_neg (by decide)] at hl'
        exact hl rfl l hl'
      · refine ⟨side', d, by rw [hnew, if_neg hside, hd], hdi, hdx, hnodes, ?_⟩
        rintro rfl l hl'
        rw [hnew] at hl'
        split at hl'
        · next hleft =>
            subst hleft
            obtain rfl := Option.some.inj hl'
            rw [c.handleChildJoining_childRank, ← hdx]
            exact (hsafe.2 c d hc hd).1 source hassigned hnodes
        · exact hl rfl l hl'
  · intro side' d hd hnodes
    rw [hnew] at hd
    split at hd
    · obtain rfl := Option.some.inj hd
      rw [hkept.childIndex, c.handleChildJoining_childRank]
      exact List.mem_insert_iff.mpr (Or.inl (Prod.ext rfl hindex))
    · exact List.mem_insert_of_mem (h.child side' d hd hnodes)

theorem Known.congr (h : Known s joined) (heq : s'.sessions = s.sessions) : Known s' joined := by
  refine ⟨?_, ?_⟩
  · rw [heq]
    exact h.session
  · rw [heq]
    exact h.child

theorem Known.updateBalancing (h : Known s joined) (haligned : Aligned s) {epoch volume : Int} {hasL hasR : Bool}
    (hsafe : Safe s (.updateBalancing epoch volume hasL hasR))
    (hs' : s.updateBalancing epoch volume hasL hasR = .ok s') : Known s' joined := by
  obtain ⟨s₁, s₂, hs₂, _, hsettled, hsessions⟩ := updateBalancing_ok haligned epoch volume hasL hasR
  obtain rfl := Except.ok.inj (hs₂.symm.trans hs')
  refine Known.settled ?_ hsettled
  rcases hsessions with heq | ⟨hnew, hsuspending, hsuspended, hsessions⟩
  · exact h.congr heq
  · refine h.candidates hsafe ?_ ?_
    · intro side hnone
      rw [hsessions, hnone, Option.map_none]
    · intro side c hc
      have hkept := c.handleBalancingUpdate_kept epoch volume (hasChild hasL hasR side)
      refine ⟨_, by rw [hsessions, hc, Option.map_some], hkept.childIndex, hkept.childHasNodes, ?_⟩
      rw [c.handleBalancingUpdate_childRank, assigned, if_pos ⟨hnew, hsuspending, hsuspended⟩]

theorem Known.handleRejectReactivation (h : Known s joined) (haligned : Aligned s) {epoch : Int} {index : Nat}
    {lost hasChild : Bool} (hsafe : Safe s (.handleRejectReactivation epoch index lost hasChild)) :
    Known (s.handleRejectReactivation epoch index lost hasChild) joined := by
  rw [LocalScheduler.handleRejectReactivation]
  cases hfind : s.getSessionByChildIndex index with
  | none => exact h
  | some found =>
      obtain ⟨side, c⟩ := found
      obtain ⟨hc, hindex⟩ := findSession_some hfind
      have hindex : c.childIndex = index := of_decide_eq_true hindex
      refine h.candidates hsafe ?_ ?_
      · intro side' hnone
        rw [sessions_apply, if_neg, hnone]
        rintro rfl
        cases hc.symm.trans hnone
      · intro side' d hd
        by_cases hside : side' = side
        · subst hside
          obtain rfl := Option.some.inj (hc.symm.trans hd)
          have hkept := c.handleRejectionOfPotentialChild_kept epoch lost hasChild (s.suspended || s.suspending)
          refine ⟨_, by rw [sessions_apply, if_pos rfl], hkept.childIndex, hkept.childHasNodes, ?_⟩
          rw [c.handleRejectionOfPotentialChild_childRank, assigned, if_pos hindex]
        · refine ⟨d, by rw [sessions_apply, if_neg hside, hd], rfl, rfl, ?_⟩
          have hne : d.childIndex ≠ index := fun heq => hside (haligned.side_eq hd hc (heq.trans hindex.symm))
          rw [assigned, if_neg hne]
          rfl

theorem Known.handleNodeFreed (h : Known s joined) {rank epoch : Int} {index : Nat}
    (hsafe : Safe s (.handleNodeFreed rank epoch index)) : Known (s.handleNodeFreed rank epoch index) joined := by
  refine h.candidates hsafe ?_ ?_
  · intro side hnone
    simp [LocalScheduler.handleNodeFreed, hnone]
  · intro side c hc
    have hkept := c.removeNode_kept rank epoch index
    exact ⟨c.removeNode rank epoch index, by simp [LocalScheduler.handleNodeFreed, hc], hkept.childIndex,
      hkept.childHasNodes, c.removeNode_childRank rank epoch index⟩

theorem Known.step (h : Known s joined) (haligned : Aligned s) (hpermitted : s.Permitted call)
    (hdelivers : Parent.Delivers ⟨s, joined⟩ call) (hsafe : Safe s call) (hs' : s.step call = .ok s') :
    Known s' (Parent.joinedAfter ⟨s, joined⟩ call) := by
  have hfresh : (∀ side, s.sessions side = none) → joined = [] := by
    intro hnone
    refine h.eq_nil_of_quiet fun side c hc => ?_
    cases (hnone side).symm.trans hc
  cases call with
  | initializeScheduling update parentRank =>
      obtain ⟨s₁, hs₁, _, hquiet, _⟩ := initializeScheduling_ok haligned hpermitted parentRank
      obtain rfl := Except.ok.inj (hs₁.symm.trans hs')
      obtain rfl := hfresh hpermitted
      exact known_of_quiet hquiet
  | updateBalancing epoch volume hasL hasR => exact h.updateBalancing haligned hsafe hs'
  | beginSuspension epoch =>
      obtain ⟨s₁, hs₁, hsettled⟩ := beginSuspension_ok haligned epoch
      obtain rfl := Except.ok.inj (hs₁.symm.trans hs')
      exact h.settled hsettled
  | handleInitialize source update =>
      obtain ⟨s₁, s₂, hs₂, hsettled, hquiet, _⟩ := handleInitialize_ok haligned hpermitted source
      obtain rfl := Except.ok.inj (hs₂.symm.trans hs')
      obtain rfl := hfresh hpermitted
      exact (known_of_quiet hquiet).settled hsettled
  | handleReturn source nodes =>
      obtain ⟨index, hmem⟩ := hdelivers
      obtain ⟨s₁, hs₁, hsettled⟩ := settle_ok (addReturnedNodes_aligned haligned source nodes)
      obtain rfl := Except.ok.inj (hs₁.symm.trans hs')
      exact (h.returned haligned hmem nodes).settled hsettled
  | handleRejectReactivation epoch index lost hasChild =>
      obtain rfl := Except.ok.inj hs'
      exact h.handleRejectReactivation haligned hsafe
  | handleChildJoining source epoch index =>
      obtain rfl := Except.ok.inj hs'
      rw [Parent.joinedAfter]
      cases hfind : s.getSessionByChildIndex index with
      | none =>
          rw [LocalScheduler.handleChildJoining, hfind]
          exact h
      | some found =>
          obtain ⟨hc, hindex⟩ := findSession_some hfind
          exact h.joining haligned hc (of_decide_eq_true hindex) hsafe
  | handleNodeFreed rank epoch index =>
      obtain rfl := Except.ok.inj hs'
      exact h.handleNodeFreed hsafe
  | beginResumptionAsRoot =>
      obtain ⟨s₁, hs₁, hsettled⟩ := beginResumptionAsRoot_ok haligned hpermitted.1 hpermitted.2
      obtain rfl := Except.ok.inj (hs₁.symm.trans hs')
      exact h.settled hsettled
  | resetRole =>
      obtain rfl := Except.ok.inj hs'
      obtain rfl := hfresh (haligned.no_session hpermitted)
      exact known_of_quiet fun side c hc => by cases hc

section Runs

def Parent.create (rank jobId : Int) (index : Nat) (parentRank : Int) : Parent :=
  ⟨SchedulerLifeCycle.create rank jobId index parentRank, []⟩

def Parent.Allowed (t : Parent) (call : Call) : Prop := t.scheduler.Permitted call ∧ t.Delivers call

def Parent.AllowedSafely (t : Parent) (call : Call) : Prop := t.Allowed call ∧ Safe t.scheduler call

variable {rank jobId : Int} {index : Nat} {parentRank : Int} {calls : List Call} {t : Parent}

theorem reached (h : Reaches Parent.step Parent.AllowedSafely (Parent.create rank jobId index parentRank) calls t) :
    Aligned t.scheduler ∧ Known t.scheduler t.joined := by
  refine Reaches.invariant (P := fun t => Aligned t.scheduler ∧ Known t.scheduler t.joined)
    ⟨SchedulerLifeCycle.create_aligned rank jobId index parentRank, known_of_quiet fun side c hc => ?_⟩ ?_ h
  · cases hc
  · rintro t call t' ⟨haligned, hknown⟩ ⟨⟨hpermitted, hdelivers⟩, hsafe⟩ ht'
    obtain ⟨s', hs', haligned', _⟩ := step_ok haligned hpermitted
    rw [Parent.step, hs'] at ht'
    obtain rfl := Except.ok.inj ht'
    exact ⟨haligned', hknown.step haligned hpermitted hdelivers hsafe hs'⟩

/-- Where no call overwrites or hides the rank of a child that holds nodes,
returned nodes reach the session of their sender, and no session waits for nodes
that have been returned. -/
theorem returned_nodes_kept
    (h : Reaches Parent.step Parent.AllowedSafely (Parent.create rank jobId index parentRank) calls t) :
    (∀ source index nodes, (source, index) ∈ t.joined → ∃ side c, t.scheduler.sessions side = some c ∧
      c.childIndex = index ∧ t.scheduler.addReturnedNodes source nodes =
        t.scheduler.setSession side (c.addJobNodesFromSuspendedChild nodes)) ∧
    (t.joined = [] → (∀ side c, t.scheduler.sessions side = some c → c.childHasNodes = false) ∧
      (t.scheduler.index ≠ 0 → t.scheduler.suspending = true → t.scheduler.canReturnInactiveJobNodes = .ok true) ∧
      (t.scheduler.resuming = true → t.scheduler.canResumeAsRoot = .ok true)) := by
  obtain ⟨haligned, hknown⟩ := reached h
  refine ⟨?_, ?_⟩
  · intro source index nodes hmem
    obtain ⟨side, c, hc, hindex, _, _, heq⟩ := hknown.addReturnedNodes_eq hmem nodes
    exact ⟨side, c, hc, hindex, heq⟩
  · intro hnil
    have hquiet : t.scheduler.Quiet := Known.quiet_of_nil (hnil ▸ hknown)
    refine ⟨hquiet, ?_, ?_⟩
    · intro hroot hsuspending
      obtain ⟨b, hb, hiff⟩ := canReturnInactiveJobNodes_ok haligned
      rw [hb, hiff.mpr ⟨hroot, hsuspending, hquiet⟩]
    · intro hresuming
      obtain ⟨b, hb, hiff⟩ := canResumeAsRoot_ok haligned
      rw [hb, hiff.mpr ⟨hresuming, hquiet⟩]

def allows (t : Parent) (call : Call) : Bool :=
  SchedulerLifeCycle.allows t.scheduler call && match call with
    | .handleReturn source _ => t.joined.any fun child => child.1 = source
    | _ => true

theorem allowed_of_allows (t : Parent) (call : Call) (h : allows t call = true) : t.Allowed call := by
  obtain ⟨hpermitted, hdelivers⟩ := Bool.and_eq_true_iff.mp h
  refine ⟨(SchedulerLifeCycle.allowed_of_allows _ _ hpermitted).1, ?_⟩
  cases call with
  | handleReturn source nodes =>
      obtain ⟨⟨x, i⟩, hmem, hx⟩ := List.any_eq_true.mp hdelivers
      exact ⟨i, of_decide_eq_true hx ▸ hmem⟩
  | _ => trivial

def isSafe (s : LocalScheduler) (call : Call) : Bool :=
  ([Side.left, Side.right].all fun side => (s.sessions side).all fun c =>
    (assigned s call side c).all fun rank => !c.childHasNodes || rank = c.childRank) &&
  (s.sessions .left).all fun l => (s.sessions .right).all fun r =>
    ((assigned s call .left l).all fun rank => !r.childHasNodes || rank ≠ r.childRank) &&
    (assigned s call .right r).all fun rank => !joins call || rank ≠ l.childRank

theorem safe_of_isSafe (s : LocalScheduler) (call : Call) (h : isSafe s call = true) : Safe s call := by
  obtain ⟨hsides, hpair⟩ := Bool.and_eq_true_iff.mp h
  refine ⟨?_, ?_⟩
  · intro side c rank hc ha hnodes
    have hside := List.all_eq_true.mp hsides side (by cases side <;> simp)
    simpa [hc, ha, hnodes] using hside
  · intro l r hl hr
    simp only [hl, hr, Option.all_some, Bool.and_eq_true] at hpair
    refine ⟨?_, ?_⟩
    · intro rank ha hnodes
      simpa [ha, hnodes] using hpair.1
    · intro rank ha hjoins
      simpa [ha, hjoins] using hpair.2

def returning : List Call :=
  [.initializeScheduling { epoch := 0 } (-1), .updateBalancing 1 2 false false, .handleChildJoining 7 1 1,
    .updateBalancing 2 1 true false, .handleReturn 7 (OrderedSet.empty.insert ⟨7, 1, 1, .available⟩)]

theorem returned_nodes_kept_returning : ∃ t, Reaches Parent.step Parent.AllowedSafely (Parent.create 0 1 0 (-1))
    returning t ∧ t.joined = [] ∧ ∀ side c, t.scheduler.sessions side = some c → c.childHasNodes = false := by
  have hrun : (returning.foldlM (checked (fun t call => allows t call && isSafe t.scheduler call) Parent.step)
      (Parent.create 0 1 0 (-1))).map (fun t => t.joined) = some [] := by decide +kernel
  obtain ⟨t, ht, hjoined⟩ := Option.map_eq_some_iff.mp hrun
  have hreach : Reaches Parent.step Parent.AllowedSafely (Parent.create 0 1 0 (-1)) returning t := by
    refine Reaches.of_checked ?_ ht
    intro t call hcheck
    obtain ⟨hallows, hsafe⟩ := Bool.and_eq_true_iff.mp hcheck
    exact ⟨allowed_of_allows t call hallows, safe_of_isSafe _ _ hsafe⟩
  obtain ⟨_, hend⟩ := returned_nodes_kept hreach
  exact ⟨t, hreach, hjoined, (hend hjoined).1⟩

/-- Then child 5 joins and has to shrink too, but before its nodes arrive the
job grows again and the node of 7 is queried. -/
def regrowing : List Call :=
  returning ++ [.updateBalancing 3 2 false false, .handleRejectReactivation 3 1 false false,
    .handleChildJoining 5 3 1, .updateBalancing 4 1 true false, .updateBalancing 5 2 false false,
    .handleReturn 5 (OrderedSet.empty.insert ⟨5, 1, 3, .available⟩)]

/-- The nodes of 5 are in no session, and the left session waits for them. -/
theorem returned_nodes_dropped : ∃ t, Reaches Parent.step Parent.Allowed (Parent.create 0 1 0 (-1)) regrowing t ∧
    t.joined = [] ∧ (∃ c, t.scheduler.sessions .left = some c ∧ c.childHasNodes = true) ∧
    ∀ side c, t.scheduler.sessions side = some c → ∀ n ∈ c.nodes.toList, n.rank ≠ 5 := by
  have hrun : (regrowing.foldlM (checked allows Parent.step) (Parent.create 0 1 0 (-1))).map
      (fun t => (t.joined, (t.scheduler.sessions .left).any (fun c => c.childHasNodes),
        [Side.left, .right].all fun side => (t.scheduler.sessions side).all fun c =>
          c.nodes.toList.all fun n => n.rank ≠ 5)) = some ([], true, true) := by decide +kernel
  obtain ⟨t, ht, heq⟩ := Option.map_eq_some_iff.mp hrun
  obtain ⟨hjoined, hrest⟩ := Prod.mk.inj heq
  obtain ⟨hwaits, hnone⟩ := Prod.mk.inj hrest
  refine ⟨t, Reaches.of_checked allowed_of_allows ht, hjoined, (Option.any_eq_true _ _).mp hwaits, ?_⟩
  · intro side c hc n hn
    have hside := List.all_eq_true.mp hnone side (by cases side <;> simp)
    rw [hc] at hside
    simpa using List.all_eq_true.mp hside n hn

end Runs

end Mallob.ReturnedNodes
