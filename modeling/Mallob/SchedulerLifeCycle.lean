import Mallob.SchedulerSteps

namespace Mallob.SchedulerLifeCycle

open LocalScheduler Runs

def create (rank jobId : Int) (index : Nat) (parentRank : Int) : LocalScheduler :=
  { rank := rank, jobId := jobId, index := index, parentRank := parentRank }

theorem create_aligned (rank jobId : Int) (index : Nat) (parentRank : Int) :
    Aligned (create rank jobId index parentRank) where
  sessions := fun _ => rfl
  suspending := fun h => by cases h
  resuming := fun h => by cases h
  indices := fun _ _ h => by cases h

theorem create_recorded (rank jobId : Int) (index : Nat) (parentRank : Int) :
    Recorded (create rank jobId index parentRank) where
  lost := fun _ _ h => by cases h
  phases := rfl
  own := fun _ _ h => by cases h

theorem foldl_phase_none (actions : List Action) : actions.foldl phase none = none := by
  induction actions with
  | nil => rfl
  | cons a actions ih =>
      have hnone : phase none a = none := by cases a <;> rfl
      rw [List.foldl_cons, hnone, ih]

theorem foldl_phase_closed {actions : List Action} (h : Action.openSessions ∉ actions) :
    actions.foldl phase (some false) = some false ∨ actions.foldl phase (some false) = none := by
  induction actions with
  | nil => exact Or.inl rfl
  | cons a actions ih =>
      have hrest := ih fun hmem => h (List.mem_cons_of_mem a hmem)
      rw [List.foldl_cons]
      cases a with
      | openSessions => exact absurd (by simp) h
      | returnNodes => exact Or.inr (foldl_phase_none actions)
      | releaseFromWaiting | initializeChildWithNodes | sendBackNodes | directedRequest | undirectedRequest =>
          exact hrest

theorem opened_between {journal before between after : List Action} {d d' : Int} {u u' : JobSchedulingUpdate}
    {p : Option Bool} {b : Bool} (h : journal.foldl phase p = some b)
    (hsplit : journal = before ++ .returnNodes d u :: between ++ .returnNodes d' u' :: after) :
    Action.openSessions ∈ between := by
  by_contra hno
  rw [hsplit, List.foldl_append, List.foldl_append, List.foldl_cons, List.foldl_cons] at h
  have hfirst : phase (before.foldl phase p) (.returnNodes d u) = some false ∨
      phase (before.foldl phase p) (.returnNodes d u) = none := by
    rcases before.foldl phase p with _ | _ | _
    · exact Or.inr rfl
    · exact Or.inr rfl
    · exact Or.inl rfl
  have hnone : phase (between.foldl phase (phase (before.foldl phase p) (.returnNodes d u))) (.returnNodes d' u') =
      none := by
    rcases hfirst with hfirst | hfirst
    · rw [hfirst]
      rcases foldl_phase_closed hno with hclosed | hclosed
      · rw [hclosed]
        rfl
      · rw [hclosed]
        rfl
    · rw [hfirst, foldl_phase_none]
      rfl
  rw [hnone, foldl_phase_none] at h
  cases h

def Allowed (s : LocalScheduler) (call : Call) : Prop := s.Permitted call ∧ CleanCall call

variable {rank jobId : Int} {index : Nat} {parentRank : Int} {calls : List Call} {s : LocalScheduler}

theorem reached (h : Reaches step Allowed (create rank jobId index parentRank) calls s) :
    Aligned s ∧ Recorded s ∧ s.rank = rank ∧ s.index = index := by
  refine Reaches.invariant (P := fun s => Aligned s ∧ Recorded s ∧ s.rank = rank ∧ s.index = index)
    ⟨create_aligned rank jobId index parentRank, create_recorded rank jobId index parentRank, rfl, rfl⟩ ?_ h
  rintro s call s' ⟨haligned, hrecorded, hrank, hindex⟩ ⟨hpermitted, hclean⟩ hs'
  obtain ⟨s₁, hs₁, haligned₁, hrec₁, hrank₁, hindex₁⟩ := step_ok haligned hpermitted
  obtain rfl := Except.ok.inj (hs₁.symm.trans hs')
  exact ⟨haligned₁, hrec₁ hclean hrecorded, hrank₁.trans hrank, hindex₁.trans hindex⟩

/-- Whatever is called in whatever order, the flags and the sessions agree, no
call fails, and the nodes are returned once for each opening of sessions. -/
theorem scheduler_life_cycle (h : Reaches step Allowed (create rank jobId index parentRank) calls s) :
    (∀ side, (s.sessions side).isSome = true ↔ s.suspended = false) ∧
    (s.suspending = true → s.suspended = false) ∧
    (s.resuming = true → s.index = 0 ∧ s.suspending = true) ∧
    (∃ b, s.canReturnInactiveJobNodes = .ok b) ∧ (∃ b, s.canResumeAsRoot = .ok b) ∧
    (∀ call, Allowed s call → ∃ s', s.step call = .ok s') ∧
    (∀ before between after d d' u u', s.journal = before ++ .returnNodes d u :: between ++ .returnNodes d' u' :: after →
      Action.openSessions ∈ between) ∧
    ∀ d u, Action.returnNodes d u ∈ s.journal →
      ∃ n ∈ u.inactiveJobNodes.toList, n.rank = rank ∧ n.originalIndex = index := by
  obtain ⟨haligned, hrecorded, hrank, hindex⟩ := reached h
  refine ⟨?_, haligned.suspending, haligned.resuming, ?_, ?_, ?_, ?_, ?_⟩
  · intro side
    rw [haligned.sessions side, Bool.not_eq_true']
  · obtain ⟨b, hb, _⟩ := canReturnInactiveJobNodes_ok haligned
    exact ⟨b, hb⟩
  · obtain ⟨b, hb, _⟩ := canResumeAsRoot_ok haligned
    exact ⟨b, hb⟩
  · intro call hcall
    obtain ⟨s', hs', _⟩ := step_ok haligned hcall.1
    exact ⟨s', hs'⟩
  · intro before between after d d' u u' hsplit
    exact opened_between hrecorded.phases hsplit
  · intro d u hmem
    obtain ⟨n, hn, hnrank, hnindex⟩ := hrecorded.own d u hmem
    exact ⟨n, hn, hnrank.trans hrank, hnindex.trans hindex⟩

def clean (nodes : InactiveJobNodeList) : Bool := nodes.toList.all fun n => n.status ≠ .lost

theorem clean_iff {nodes : InactiveJobNodeList} : clean nodes = true ↔ nodes.Clean := by
  simp [clean, InactiveJobNodeList.Clean]

def allows (s : LocalScheduler) : Call → Bool
  | .initializeScheduling update _ =>
    (s.sessions .left).isNone && (s.sessions .right).isNone && clean update.inactiveJobNodes
  | .handleInitialize _ update =>
    (s.sessions .left).isNone && (s.sessions .right).isNone && clean update.inactiveJobNodes
  | .handleReturn _ nodes => clean nodes
  | .beginResumptionAsRoot => s.index = 0 && s.suspending
  | .resetRole => s.canCommit
  | _ => true

theorem allowed_of_allows (s : LocalScheduler) (call : Call) (h : allows s call = true) : Allowed s call := by
  have hnone : ((s.sessions .left).isNone && (s.sessions .right).isNone) = true → ∀ side, s.sessions side = none := by
    intro hboth side
    obtain ⟨hleft, hright⟩ := Bool.and_eq_true_iff.mp hboth
    cases side with
    | left => exact Option.isNone_iff_eq_none.mp hleft
    | right => exact Option.isNone_iff_eq_none.mp hright
  cases call with
  | initializeScheduling | handleInitialize =>
      obtain ⟨hboth, hclean⟩ := Bool.and_eq_true_iff.mp h
      exact ⟨hnone hboth, clean_iff.mp hclean⟩
  | handleReturn => exact ⟨trivial, clean_iff.mp h⟩
  | beginResumptionAsRoot =>
      obtain ⟨hroot, hsuspending⟩ := Bool.and_eq_true_iff.mp h
      exact ⟨⟨of_decide_eq_true hroot, hsuspending⟩, trivial⟩
  | resetRole => exact ⟨h, trivial⟩
  | updateBalancing | beginSuspension | handleRejectReactivation | handleChildJoining | handleNodeFreed =>
      exact ⟨trivial, trivial⟩

def shrinking : List Call :=
  [.handleInitialize 0 { epoch := 1, volume := 4 }, .handleChildJoining 7 1 3, .updateBalancing 2 1 true false,
    .handleReturn 7 (OrderedSet.empty.insert ⟨7, 3, 1, .available⟩)]

theorem scheduler_life_cycle_shrinking : ∃ s, Reaches step Allowed (create 5 1 1 0) shrinking s ∧
    s.suspended = true ∧ ∃ d u, Action.returnNodes d u ∈ s.journal ∧
      ∃ n ∈ u.inactiveJobNodes.toList, n.rank = 5 ∧ n.originalIndex = 1 := by
  have hrun : (shrinking.foldlM (checked allows step) (create 5 1 1 0)).map
      (fun s => (s.suspended, s.journal.any fun a => match a with | .returnNodes _ _ => true | _ => false)) =
      some (true, true) := by decide +kernel
  obtain ⟨s, hs, heq⟩ := Option.map_eq_some_iff.mp hrun
  obtain ⟨hsuspended, hany⟩ := Prod.mk.inj heq
  have hreach := Reaches.of_checked allowed_of_allows hs
  obtain ⟨a, ha, hreturn⟩ := List.any_eq_true.mp hany
  obtain ⟨_, _, _, _, _, _, _, hown⟩ := scheduler_life_cycle hreach
  cases a with
  | returnNodes d u => exact ⟨s, hreach, hsuspended, d, u, ha, hown d u ha⟩
  | releaseFromWaiting | initializeChildWithNodes | sendBackNodes | directedRequest | undirectedRequest
  | openSessions => cases hreturn

end Mallob.SchedulerLifeCycle
