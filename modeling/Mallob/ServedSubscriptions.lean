import Mallob.HistoryNetwork

namespace Mallob.Sharing

/-- A subscription is served at least once, since the end of its range is checked after a batch is sent. -/
def Subscription.total (s : Subscription) : Nat := (max (s.endIndex - s.nextIndex) 1).toNat

def Subscription.advanced (s : Subscription) (k : Nat) : Subscription := { s with nextIndex := s.nextIndex + k }

namespace HistoryNetwork

open ClauseHistory (Arrival Batch onSubscribe onUnsubscribe sendNextBatches_cons sendNextBatch_cases)
open ClauseNetwork (Packet View Options accepts smallOptions viewOf)

variable {factor : Nat} {h h' : ClauseHistory factor} {x x' start : Node factor} {sub : Subscription} {q k rank : Nat}
  {o : Options} {options : HistoryOptions} {v : View} {pastEnd : Int × Int} {out : List Packet}

structure Served (start : Node factor) (sub : Subscription) (k : Nat) (x : Node factor) : Prop where
  subscription : x.subscribers.filter (·.correspondingRank = sub.correspondingRank) =
    if k < sub.total then [sub.advanced k] else []
  batches : (x.served.filter (·.dest = sub.correspondingRank)).map (·.index) =
    (start.served.filter (·.dest = sub.correspondingRank)).map (·.index) ++
      (List.range k).map fun i : Nat => sub.nextIndex + (i : Int)
  le_total : k ≤ sub.total
  complete : ∀ i < k, x.history.isBatchCompleteAt (sub.nextIndex + (i : Int)) = true

def Grows (h h' : ClauseHistory factor) : Prop :=
  ∀ index, h.isBatchCompleteAt index = true → h'.isBatchCompleteAt index = true

theorem Grows.refl (h : ClauseHistory factor) : Grows h h := fun _ hcomplete => hcomplete

theorem Grows.trans {h'' : ClauseHistory factor} (hgrows : Grows h h') (hgrows' : Grows h' h'') : Grows h h'' :=
  fun index hcomplete => hgrows' index (hgrows index hcomplete)

theorem served_start (hsub : x.subscribers.filter (·.correspondingRank = sub.correspondingRank) = [sub]) :
    Served x sub 0 x where
  subscription := by
    have hpos : 0 < sub.total := by
      rw [Subscription.total]
      omega
    rw [hsub, if_pos hpos, Subscription.advanced]
    simp
  batches := by simp
  le_total := Nat.zero_le _
  complete := fun _ hi => absurd hi (Nat.not_lt_zero _)

/-- A call that leaves the subscription and the batches of the rank as they are. -/
theorem Served.frame (hs : Served start sub k x)
    (hsubscribers : x'.subscribers.filter (·.correspondingRank = sub.correspondingRank) =
      x.subscribers.filter (·.correspondingRank = sub.correspondingRank))
    (hserved : x'.served = x.served) (hgrows : Grows x.history x'.history) : Served start sub k x' where
  subscription := hsubscribers.trans hs.subscription
  batches := by
    rw [hserved]
    exact hs.batches
  le_total := hs.le_total
  complete := fun i hi => hgrows _ (hs.complete i hi)

theorem sendNextBatches_eq (hok : sendNextBatches o rank x v = .ok (x', out)) : ∃ subscribers batches,
    x.history.sendNextBatches x.subscribers = .ok (subscribers, batches) ∧ x'.history = x.history ∧
      x'.subscribers = subscribers ∧ x'.served = x.served ++ batches := by
  rw [sendNextBatches] at hok
  obtain ⟨⟨subscribers, batches⟩, hsend, heq⟩ := Runs.exists_of_map_eq_ok hok
  cases heq
  exact ⟨subscribers, batches, hsend, rfl, rfl, rfl⟩

/-- The next batch is sent exactly if it is complete and the subscription has not ended. -/
theorem Served.sendNextBatches (hs : Served start sub k x) (hok : sendNextBatches o rank x v = .ok (x', out)) :
    (Served start sub k x' ∧ (k = sub.total ∨ x.history.isBatchCompleteAt (sub.nextIndex + (k : Int)) = false)) ∨
    Served start sub (k + 1) x' := by
  obtain ⟨subscribers, batches, hsend, hhistory, rfl, hserved⟩ := sendNextBatches_eq hok
  have hfilter := ClauseHistory.sendNextBatches_filter hsend sub.correspondingRank
  have hbatches : (x'.served.filter (·.dest = sub.correspondingRank)).map (·.index) =
      ((start.served.filter (·.dest = sub.correspondingRank)).map (·.index) ++
        (List.range k).map fun i : Nat => sub.nextIndex + (i : Int)) ++
        (batches.filter (·.dest = sub.correspondingRank)).map (·.index) := by
    rw [hserved, List.filter_append, List.map_append, hs.batches]
  rw [hs.subscription] at hfilter
  by_cases hlt : k < sub.total
  · rw [if_pos hlt] at hfilter
    obtain ⟨kept, batch, rest, rest', hone, hnil, hsubscribers, hsent⟩ := sendNextBatches_cons hfilter
    cases hnil
    rw [List.append_nil] at hsubscribers hsent
    rw [hsent] at hbatches
    rcases sendNextBatch_cases hone with ⟨hincomplete, rfl, rfl⟩ | ⟨hcomplete, clauses, rest, -, rfl, rfl⟩
    · refine Or.inl ⟨⟨?_, ?_, hs.le_total, ?_⟩, Or.inr hincomplete⟩
      · rw [hsubscribers, if_pos hlt]
        rfl
      · simpa using hbatches
      · rw [hhistory]
        exact hs.complete
    · refine Or.inr ⟨?_, ?_, hlt, ?_⟩
      · rw [hsubscribers]
        have hend : (sub.advanced k).endIndex ≤ (sub.advanced k).nextIndex + 1 ↔ ¬ k + 1 < sub.total := by
          simp only [Subscription.advanced, Subscription.total]
          omega
        by_cases hlast : k + 1 < sub.total
        · rw [if_neg (fun hle => hend.mp hle hlast), if_pos hlast]
          simp [Subscription.advanced, add_assoc]
        · rw [if_pos (hend.mpr hlast), if_neg hlast]
          rfl
      · rw [hbatches, List.range_succ, List.map_append, List.append_assoc]
        rfl
      · intro i hi
        rw [hhistory]
        rcases Nat.lt_succ_iff_lt_or_eq.mp hi with hi | rfl
        · exact hs.complete i hi
        · exact hcomplete
  · have htotal : k = sub.total := le_antisymm hs.le_total (not_lt.mp hlt)
    rw [if_neg hlt] at hfilter
    obtain ⟨hnone, hsent⟩ := Prod.mk.inj (Except.ok.inj hfilter)
    rw [← hsent] at hbatches
    refine Or.inl ⟨⟨?_, ?_, hs.le_total, ?_⟩, Or.inl htotal⟩
    · rw [if_neg hlt, ← hnone]
    · simpa using hbatches
    · rw [hhistory]
      exact hs.complete

section Calls

variable [NeZero factor]

theorem grows_addEpoch {a : Arrival} {sent : List Subscription}
    (hok : h.addEpochAndSubscribe options a = .ok (h', sent)) : Grows h h' := by
  obtain ⟨h₁, hreceive, heq⟩ := Runs.exists_of_map_eq_ok hok
  obtain ⟨h₂, hinsert, rfl⟩ := Runs.exists_of_map_eq_ok hreceive
  obtain rfl : _ = h' := congrArg Prod.fst heq
  intro index hcomplete
  rw [ClauseHistory.isBatchCompleteAt, Bool.and_eq_true] at hcomplete ⊢
  refine ⟨hcomplete.1, ?_⟩
  have hlast := ClauseHistory.isBatchComplete_congr (fun index =>
    ((ClauseHistory.updateLatestEpoch_spec options { h₂.updateRanges a.epoch with
      subscription := ((h₂.updateRanges a.epoch).updateSubscription (a.epoch / factor) a.parentRank a.pastEnd).1 }
      a.epoch).2.2.2 index).1) index.toNat
  exact hlast.trans (ClauseHistory.isBatchComplete_insertClauses hinsert hcomplete.2)

theorem Served.learnEpoch (hs : Served start sub k x) {epoch : Nat} {clauses : List Int}
    (hok : learnEpoch o options rank x v pastEnd epoch clauses = .ok (x', out)) : Grows x.history x'.history ∧
    ((Served start sub k x' ∧ (k = sub.total ∨ x.history.isBatchCompleteAt (sub.nextIndex + (k : Int)) = false)) ∨
      Served start sub (k + 1) x') := by
  rw [HistoryNetwork.learnEpoch] at hok
  cases hadd : x.history.addEpochAndSubscribe options ⟨epoch, clauses, false, v.parentRank, pastEnd⟩ with
  | error e =>
      rw [hadd] at hok
      cases hok
  | ok result =>
      rw [hadd] at hok
      obtain ⟨⟨x₁, out₁⟩, hsend, heq⟩ := Runs.exists_of_map_eq_ok hok
      obtain rfl : x₁ = x' := congrArg Prod.fst heq
      have hgrows : Grows x.history result.1 := grows_addEpoch hadd
      have hadded : Served start sub k { x with history := result.1 } := hs.frame rfl rfl hgrows
      obtain ⟨-, -, -, hhistory, -⟩ := sendNextBatches_eq hsend
      refine ⟨hhistory ▸ hgrows, ?_⟩
      rcases hadded.sendNextBatches hsend with ⟨hsame, htotal | hincomplete⟩ | hnext
      · exact Or.inl ⟨hsame, Or.inl htotal⟩
      · refine Or.inl ⟨hsame, Or.inr ?_⟩
        rw [← Bool.not_eq_true] at hincomplete ⊢
        exact fun hcomplete => hincomplete (hgrows _ hcomplete)
      · exact Or.inr hnext

/-- No subscription or unsubscription of a rank arrives at another one. -/
def Undisturbed (server q : Nat) (s : State factor) : Action → Prop
  | .learnEpoch _ _ _ _ _ => True
  | .deliver i _ _ => ∀ m, s.inFlight[i]? = some m → m.dest = server → m.source = q →
      m.message.tag ≠ MSG_CLAUSE_HISTORY_SUBSCRIBE ∧ m.message.tag ≠ MSG_CLAUSE_HISTORY_UNSUBSCRIBE
  | .suspend _ _ => True
  | .feedHistoryIntoSolver r => r = server → r ≠ q

def serves (server : Nat) : Action → Bool
  | .learnEpoch r _ _ _ _ => r = server
  | .deliver _ _ _ => false
  | .suspend _ _ => false
  | .feedHistoryIntoSolver _ => false

theorem Served.handle (hs : Served start sub k x) {m : Packet}
    (hundisturbed : m.source = sub.correspondingRank →
      m.message.tag ≠ MSG_CLAUSE_HISTORY_SUBSCRIBE ∧ m.message.tag ≠ MSG_CLAUSE_HISTORY_UNSUBSCRIBE)
    (hok : handle o options rank x v pastEnd m.source m.message = .ok (x', out)) :
    Served start sub k x' ∧ Grows x.history x'.history := by
  rw [HistoryNetwork.handle] at hok
  by_cases haccepts : (!accepts o v m.message) = true
  · rw [if_pos haccepts] at hok
    cases hok
    exact ⟨hs, Grows.refl _⟩
  rw [if_neg haccepts] at hok
  by_cases hsend : m.message.tag = MSG_CLAUSE_HISTORY_SEND_CLAUSES
  · rw [if_pos hsend] at hok
    by_cases hnegative : m.message.epoch < 0
    · rw [if_pos hnegative] at hok
      cases hok
    rw [if_neg hnegative] at hok
    cases hadd : x.history.addEpochAndSubscribe options
        ⟨m.message.epoch.toNat, m.message.payload, true, v.parentRank, pastEnd⟩ with
    | error e =>
        rw [hadd] at hok
        cases hok
    | ok result =>
        rw [hadd] at hok
        have hgrows : Grows x.history result.1 := grows_addEpoch hadd
        obtain rfl : learnClauses o { x with history := result.1 } v m.message.payload = x' :=
          congrArg Prod.fst (Except.ok.inj hok)
        rw [learnClauses]
        split
        · exact ⟨hs.frame rfl rfl hgrows, hgrows⟩
        · exact ⟨hs.frame rfl rfl hgrows, hgrows⟩
  rw [if_neg hsend] at hok
  by_cases hsubscribe : m.message.tag = MSG_CLAUSE_HISTORY_SUBSCRIBE
  · have hne : m.source ≠ sub.correspondingRank := fun heq => (hundisturbed heq).1 hsubscribe
    rw [if_pos hsubscribe] at hok
    split at hok
    · cases hok
      exact ⟨hs.frame (ClauseHistory.filter_onSubscribe hne _ _) rfl (Grows.refl _), Grows.refl _⟩
    · cases hok
  rw [if_neg hsubscribe] at hok
  by_cases hunsubscribe : m.message.tag = MSG_CLAUSE_HISTORY_UNSUBSCRIBE
  · have hne : m.source ≠ sub.correspondingRank := fun heq => (hundisturbed heq).2 hunsubscribe
    rw [if_pos hunsubscribe] at hok
    cases hok
    exact ⟨hs.frame (ClauseHistory.filter_onUnsubscribe hne) rfl (Grows.refl _), Grows.refl _⟩
  · rw [if_neg hunsubscribe] at hok
    cases hok
    exact ⟨hs, Grows.refl _⟩

section Runs

variable {s s' : State factor} {server : Nat} {action : Action}

/-- One step serves the subscription at most once, and it does so where the server hears of a broadcast and the next
batch is complete. -/
theorem Served.step (hs : Served start sub k (s.nodes server))
    (hundisturbed : Undisturbed server sub.correspondingRank s action) (hok : step o options s action = .ok s') :
    Grows (s.nodes server).history (s'.nodes server).history ∧
    ((Served start sub k (s'.nodes server) ∧ (serves server action = true →
      k = sub.total ∨ (s.nodes server).history.isBatchCompleteAt (sub.nextIndex + (k : Int)) = false)) ∨
      (serves server action = true ∧ Served start sub (k + 1) (s'.nodes server))) := by
  cases action with
  | learnEpoch r v pastEnd epoch clauses =>
      obtain ⟨⟨x, out⟩, hlearn, rfl⟩ := Runs.exists_of_map_eq_ok hok
      simp only [setNode_nodes, serves, decide_eq_true_eq]
      split
      · next heq =>
          subst heq
          obtain ⟨hgrows, hserved⟩ := hs.learnEpoch hlearn
          refine ⟨hgrows, ?_⟩
          rcases hserved with ⟨hsame, hwhy⟩ | hnext
          · exact Or.inl ⟨hsame, fun _ => hwhy⟩
          · exact Or.inr ⟨rfl, hnext⟩
      · next hne => exact ⟨Grows.refl _, Or.inl ⟨hs, fun heq => absurd heq.symm hne⟩⟩
  | deliver i v pastEnd =>
      rw [HistoryNetwork.step] at hok
      cases hm : s.inFlight[i]? with
      | none =>
          rw [hm] at hok
          cases hok
          exact ⟨Grows.refl _, Or.inl ⟨hs, fun h => absurd h Bool.false_ne_true⟩⟩
      | some m =>
          rw [hm] at hok
          obtain ⟨⟨x, out⟩, hhandle, rfl⟩ := Runs.exists_of_map_eq_ok hok
          simp only [setNode_nodes]
          split
          · next heq =>
              subst heq
              obtain ⟨hsame, hgrows⟩ := hs.handle (hundisturbed m hm rfl) hhandle
              exact ⟨hgrows, Or.inl ⟨hsame, fun h => absurd h Bool.false_ne_true⟩⟩
          · exact ⟨Grows.refl _, Or.inl ⟨hs, fun h => absurd h Bool.false_ne_true⟩⟩
  | suspend r v =>
      cases hok
      simp only [setNode_nodes]
      split
      · next heq =>
          subst heq
          exact ⟨Grows.refl _, Or.inl ⟨hs.frame rfl rfl (Grows.refl _), fun h => absurd h Bool.false_ne_true⟩⟩
      · exact ⟨Grows.refl _, Or.inl ⟨hs, fun h => absurd h Bool.false_ne_true⟩⟩
  | feedHistoryIntoSolver r =>
      cases hok
      simp only [setNode_nodes]
      split
      · next heq =>
          subst heq
          have hne := hundisturbed rfl
          have hframe : Served start sub k (feed server (s.nodes server)) :=
            hs.frame (ClauseHistory.filter_onSubscribe hne _ _) rfl (Grows.refl _)
          exact ⟨Grows.refl _, Or.inl ⟨hframe, fun h => absurd h Bool.false_ne_true⟩⟩
      · exact ⟨Grows.refl _, Or.inl ⟨hs, fun h => absurd h Bool.false_ne_true⟩⟩

/-- A subscription that is not touched is served with the batches of its range in their order, each of them once and
only when it is complete, and it ends with the last one. Where all of them are complete one is sent with every broadcast
that the server hears of. -/
theorem subscription_served (factor : Nat) [NeZero factor] (o : Options) (options : HistoryOptions) (server : Nat)
    (s s' : State factor) (actions : List Action) (sub : Subscription)
    (hsub : (s.nodes server).subscribers.filter (·.correspondingRank = sub.correspondingRank) = [sub])
    (hrun : Runs.Reaches (step o options) (Undisturbed server sub.correspondingRank) s actions s') :
    ∃ k ≤ actions.countP (serves server), Served (s.nodes server) sub k (s'.nodes server) ∧
      ((∀ i < sub.total, (s.nodes server).history.isBatchCompleteAt (sub.nextIndex + (i : Int)) = true) →
        k = min (actions.countP (serves server)) sub.total) := by
  suffices hboth : Grows (s.nodes server).history (s'.nodes server).history ∧
      ∃ k ≤ actions.countP (serves server), Served (s.nodes server) sub k (s'.nodes server) ∧
      ((∀ i < sub.total, (s.nodes server).history.isBatchCompleteAt (sub.nextIndex + (i : Int)) = true) →
        k = min (actions.countP (serves server)) sub.total) from hboth.2
  induction hrun with
  | nil => exact ⟨Grows.refl _, 0, Nat.zero_le _, served_start hsub, fun _ => by simp⟩
  | @concat actions action s₁ s₂ _ hundisturbed hok ih =>
      obtain ⟨hgrown, k, hle, hserved, hall⟩ := ih
      obtain ⟨hgrows, hstep⟩ := hserved.step hundisturbed hok
      refine ⟨hgrown.trans hgrows, ?_⟩
      rw [List.countP_append, List.countP_singleton]
      rcases hstep with ⟨hsame, hwhy⟩ | ⟨hserves, hnext⟩
      · refine ⟨k, by omega, hsame, fun hcomplete => ?_⟩
        have hk := hall hcomplete
        cases hserves : serves server action with
        | false => simpa using hk
        | true =>
            rcases hwhy hserves with htotal | hincomplete
            · simp only [if_true]
              omega
            · have hlast : ¬ k < sub.total := by
                intro hlt
                rw [hgrown _ (hcomplete k hlt)] at hincomplete
                cases hincomplete
              simp only [if_true]
              omega
      · refine ⟨k + 1, by rw [if_pos hserves]; omega, hnext, fun hcomplete => ?_⟩
        have hk := hall hcomplete
        have hbound := hnext.le_total
        rw [if_pos hserves]
        omega

end Runs

end Calls

def subscribed : State 2 where
  nodes := fun r => if r = 0 then
      { history := { history := [⟨[[1, 0, 1, 5]], Finset.univ⟩, ⟨[[1, 0, 1, -6]], Finset.univ⟩], latestEpoch := 3 }
        subscribers := [⟨1, 0, 2⟩] }
    else {}

def nextBroadcasts : List Action :=
  [.learnEpoch 0 (viewOf 0 []) (0, 0) 4 [], .learnEpoch 0 (viewOf 0 []) (0, 0) 5 [],
    .learnEpoch 0 (viewOf 0 []) (0, 0) 6 []]

/-- Two of the next three broadcasts take a batch along. -/
theorem subscription_served_nextBroadcasts : ∃ s : State 2, (s.nodes 0).subscribers = [] ∧
    Served (subscribed.nodes 0) ⟨1, 0, 2⟩ 2 (s.nodes 0) := by
  have hrun : (nextBroadcasts.foldlM (Runs.checked (fun _ a => serves 0 a) (step smallOptions ⟨10, 100, 100, 2⟩))
      subscribed).map (fun s => (s.nodes 0).subscribers) = some [] := by
    decide +kernel
  obtain ⟨s, hs, hsubscribers⟩ := Option.map_eq_some_iff.mp hrun
  have hreaches : Runs.Reaches (step smallOptions ⟨10, 100, 100, 2⟩) (Undisturbed 0 1) subscribed nextBroadcasts s := by
    refine .of_checked (fun s action hserves => ?_) hs
    cases action with
    | learnEpoch r v pastEnd epoch clauses => trivial
    | deliver i v pastEnd => cases hserves
    | suspend r v => cases hserves
    | feedHistoryIntoSolver r => cases hserves
  obtain ⟨k, -, hserved, hall⟩ := subscription_served 2 smallOptions ⟨10, 100, 100, 2⟩ 0 subscribed s nextBroadcasts
    ⟨1, 0, 2⟩ (by decide) hreaches
  obtain rfl : k = 2 := hall (by decide +kernel)
  exact ⟨s, hsubscribers, hserved⟩

end HistoryNetwork

end Mallob.Sharing
