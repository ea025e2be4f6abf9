import Mallob.HistoryContents

namespace Mallob.Sharing.ClauseHistory

structure Batch where
  dest : Nat
  index : Int
  clauses : List Int
deriving DecidableEq

inductive Fault
  | emptyEntry
  | shortPayload
  | negativeEpoch
  | merge (fault : MergeFault)

variable {factor : Nat}

/-- A negative index is behind the end of any history, since it is compared without its sign. -/
def isBatchCompleteAt (h : ClauseHistory factor) (index : Int) : Bool :=
  decide (0 ≤ index) && h.isBatchComplete index.toNat

def sendNextBatch (h : ClauseHistory factor) (s : Subscription) : Except Fault (Option Subscription × Option Batch) :=
  if h.isBatchCompleteAt s.nextIndex then
    match (h.entry s.nextIndex.toNat).clauses with
    | [] => .error .emptyEntry
    | clauses :: _ =>
        .ok (if s.endIndex ≤ s.nextIndex + 1 then none else some { s with nextIndex := s.nextIndex + 1 },
          some ⟨s.correspondingRank, s.nextIndex, clauses⟩)
  else .ok (some s, none)

/-- There is one subscription for each rank, in the order of a hash map. -/
def sendNextBatches (h : ClauseHistory factor) : List Subscription → Except Fault (List Subscription × List Batch)
  | [] => .ok ([], [])
  | s :: subscribers =>
      (h.sendNextBatch s).bind fun served => (h.sendNextBatches subscribers).map fun rest =>
        (served.1.toList ++ rest.1, served.2.toList ++ rest.2)

def onUnsubscribe (subscribers : List Subscription) (source : Nat) : List Subscription :=
  subscribers.filter (·.correspondingRank ≠ source)

def onSubscribe (subscribers : List Subscription) (source : Nat) (beginIndex endIndex : Int) : List Subscription :=
  onUnsubscribe subscribers source ++ [⟨source, beginIndex, endIndex⟩]

def feedHistoryIntoSolver (h : ClauseHistory factor) (subscribers : List Subscription) (rank : Nat) :
    List Subscription :=
  onSubscribe subscribers rank 0 (epochToIndex factor h.latestEpoch + 1)

def addEpochAndSubscribe [NeZero factor] (options : HistoryOptions) (h : ClauseHistory factor) (a : Arrival) :
    Except MergeFault (ClauseHistory factor × List Subscription) :=
  (h.receive options a).map fun h =>
    let (subscription, sent) := h.updateSubscription (a.epoch / factor) a.parentRank a.pastEnd
    ({ h with subscription := subscription }.updateLatestEpoch options a.epoch, sent)

theorem addEpoch_eq_map [NeZero factor] (options : HistoryOptions) (h : ClauseHistory factor) (a : Arrival) :
    h.addEpoch options a = (h.addEpochAndSubscribe options a).map Prod.fst := by
  rw [addEpoch, addEpochAndSubscribe]
  cases h.receive options a with
  | error e => rfl
  | ok h₁ => rfl

variable {h : ClauseHistory factor} {s s' : Subscription} {subscribers subscribers' : List Subscription}
  {batch : Option Batch} {batches : List Batch} {kept : Option Subscription} {q : Nat}

section Serving

/-- A subscription waits for its next batch, or it is served and goes on or ends. -/
theorem sendNextBatch_cases (hok : h.sendNextBatch s = .ok (kept, batch)) :
    (h.isBatchCompleteAt s.nextIndex = false ∧ kept = some s ∧ batch = none) ∨
    (h.isBatchCompleteAt s.nextIndex = true ∧ ∃ clauses rest, (h.entry s.nextIndex.toNat).clauses = clauses :: rest ∧
      kept = (if s.endIndex ≤ s.nextIndex + 1 then none else some { s with nextIndex := s.nextIndex + 1 }) ∧
      batch = some ⟨s.correspondingRank, s.nextIndex, clauses⟩) := by
  rw [sendNextBatch] at hok
  cases hcomplete : h.isBatchCompleteAt s.nextIndex with
  | false =>
      rw [hcomplete] at hok
      cases hok
      exact Or.inl ⟨rfl, rfl, rfl⟩
  | true =>
      rw [hcomplete, if_pos rfl] at hok
      cases hclauses : (h.entry s.nextIndex.toNat).clauses with
      | nil =>
          rw [hclauses] at hok
          cases hok
      | cons clauses rest =>
          rw [hclauses] at hok
          cases hok
          exact Or.inr ⟨rfl, clauses, rest, rfl, rfl, rfl⟩

theorem sendNextBatch_rank (hok : h.sendNextBatch s = .ok (kept, batch)) :
    (∀ s' ∈ kept, s'.correspondingRank = s.correspondingRank) ∧ ∀ b ∈ batch, b.dest = s.correspondingRank := by
  rcases sendNextBatch_cases hok with ⟨-, rfl, rfl⟩ | ⟨-, clauses, rest, -, rfl, rfl⟩
  · exact ⟨fun s' hs' => by rw [Option.mem_some.mp hs'], fun b hb => absurd hb (Option.not_mem_none b)⟩
  · refine ⟨fun s' hs' => ?_, fun b hb => by rw [← Option.mem_some.mp hb]⟩
    split at hs'
    · cases hs'
    · rw [← Option.mem_some.mp hs']

theorem sendNextBatches_cons (hok : h.sendNextBatches (s :: subscribers) = .ok (subscribers', batches)) :
    ∃ kept batch rest rest', h.sendNextBatch s = .ok (kept, batch) ∧ h.sendNextBatches subscribers = .ok (rest, rest') ∧
      subscribers' = kept.toList ++ rest ∧ batches = batch.toList ++ rest' := by
  rw [sendNextBatches] at hok
  obtain ⟨⟨kept, batch⟩, hserved, hok⟩ := Runs.exists_of_bind_eq_ok hok
  obtain ⟨⟨rest, rest'⟩, hrest, heq⟩ := Runs.exists_of_map_eq_ok hok
  cases heq
  exact ⟨kept, batch, rest, rest', hserved, hrest, rfl, rfl⟩

theorem sendNextBatches_filter (hok : h.sendNextBatches subscribers = .ok (subscribers', batches)) (q : Nat) :
    h.sendNextBatches (subscribers.filter (·.correspondingRank = q)) =
      .ok (subscribers'.filter (·.correspondingRank = q), batches.filter (·.dest = q)) := by
  induction subscribers generalizing subscribers' batches with
  | nil =>
      cases hok
      rfl
  | cons s subscribers ih =>
      obtain ⟨kept, batch, rest, rest', hserved, hrest, rfl, rfl⟩ := sendNextBatches_cons hok
      obtain ⟨hkept, hbatch⟩ := sendNextBatch_rank hserved
      have hkept' : ∀ s' ∈ kept.toList, s'.correspondingRank = s.correspondingRank := by simpa using hkept
      have hbatch' : ∀ b ∈ batch.toList, b.dest = s.correspondingRank := by simpa using hbatch
      rw [List.filter_append, List.filter_append]
      by_cases hq : s.correspondingRank = q
      · have hsub : kept.toList.filter (·.correspondingRank = q) = kept.toList :=
          List.filter_eq_self.mpr fun s' hs' => decide_eq_true ((hkept' s' hs').trans hq)
        have hall : batch.toList.filter (·.dest = q) = batch.toList :=
          List.filter_eq_self.mpr fun b hb => decide_eq_true ((hbatch' b hb).trans hq)
        rw [List.filter_cons_of_pos (by simpa using hq), sendNextBatches, hserved, hsub, hall, ih hrest]
        rfl
      · have hsub : kept.toList.filter (·.correspondingRank = q) = [] :=
          List.filter_eq_nil_iff.mpr fun s' hs' => by simpa using fun heq => hq ((hkept' s' hs').symm.trans heq)
        have hnone : batch.toList.filter (·.dest = q) = [] :=
          List.filter_eq_nil_iff.mpr fun b hb => by simpa using fun heq => hq ((hbatch' b hb).symm.trans heq)
        rw [List.filter_cons_of_neg (by simpa using hq), hsub, hnone, List.nil_append, List.nil_append]
        exact ih hrest

theorem sendNextBatches_sublist (hok : h.sendNextBatches subscribers = .ok (subscribers', batches)) :
    (subscribers'.map (·.correspondingRank)).Sublist (subscribers.map (·.correspondingRank)) := by
  induction subscribers generalizing subscribers' batches with
  | nil =>
      cases hok
      exact List.Sublist.refl _
  | cons s subscribers ih =>
      obtain ⟨kept, batch, rest, rest', hserved, hrest, rfl, rfl⟩ := sendNextBatches_cons hok
      cases kept with
      | none => exact (ih hrest).cons _
      | some s' =>
          have hrank := (sendNextBatch_rank hserved).1 s' rfl
          rw [Option.toList_some, List.singleton_append, List.map_cons, List.map_cons, hrank]
          exact (ih hrest).cons_cons _

theorem nodup_onSubscribe (hnodup : (subscribers.map (·.correspondingRank)).Nodup) (source : Nat) (b e : Int) :
    ((onSubscribe subscribers source b e).map (·.correspondingRank)).Nodup := by
  rw [onSubscribe, List.map_append, List.nodup_append]
  refine ⟨hnodup.sublist (List.filter_sublist.map _), List.nodup_singleton _, ?_⟩
  intro r hr r' hr' heq
  obtain ⟨s, hs, rfl⟩ := List.mem_map.mp hr
  have hne := (List.mem_filter.mp hs).2
  rw [List.map_singleton, List.mem_singleton] at hr'
  rw [decide_eq_true_eq] at hne
  exact hne (heq.trans hr')

theorem filter_onUnsubscribe {source : Nat} (hne : source ≠ q) :
    (onUnsubscribe subscribers source).filter (·.correspondingRank = q) =
      subscribers.filter (·.correspondingRank = q) := by
  rw [onUnsubscribe, List.filter_filter]
  refine List.filter_congr fun s _ => ?_
  by_cases hq : s.correspondingRank = q
  · simp [hq, hne.symm]
  · simp [hq]

theorem filter_onSubscribe {source : Nat} (hne : source ≠ q) (b e : Int) :
    (onSubscribe subscribers source b e).filter (·.correspondingRank = q) =
      subscribers.filter (·.correspondingRank = q) := by
  rw [onSubscribe, List.filter_append, filter_onUnsubscribe hne]
  simp [hne]

end Serving

section Soundness

variable [NeZero factor] {p : Nat} {sources : Nat → Set Clause} {known : Nat → Prop}

def Batch.Sound (p factor : Nat) (sources : Nat → Set Clause) (known : Nat → Prop) (b : Batch) : Prop :=
  0 ≤ b.index ∧ Holds p (sources b.index.toNat) [b.clauses] ∧ ∀ epoch, epoch / factor = b.index.toNat → known epoch

theorem Sound.sendNextBatch (hs : Sound p sources known h) (s : Subscription) :
    ∃ kept batch, h.sendNextBatch s = .ok (kept, batch) ∧ ∀ b ∈ batch, b.Sound p factor sources known := by
  rw [ClauseHistory.sendNextBatch]
  cases hcomplete : h.isBatchCompleteAt s.nextIndex with
  | false => exact ⟨some s, none, rfl, fun b hb => absurd hb (Option.not_mem_none b)⟩
  | true =>
      rw [isBatchCompleteAt, Bool.and_eq_true, decide_eq_true_eq] at hcomplete
      obtain ⟨b, hclauses, hholds, hknown⟩ := hs.exists_complete hcomplete.2
      rw [hclauses]
      refine ⟨_, _, rfl, fun b' hb' => ?_⟩
      rw [← Option.mem_some.mp hb']
      exact ⟨hcomplete.1, hholds, hknown⟩

theorem Sound.sendNextBatches (hs : Sound p sources known h) (subscribers : List Subscription) :
    ∃ subscribers' batches, h.sendNextBatches subscribers = .ok (subscribers', batches) ∧
      ∀ b ∈ batches, b.Sound p factor sources known := by
  induction subscribers with
  | nil => exact ⟨[], [], rfl, fun b hb => absurd hb List.not_mem_nil⟩
  | cons s subscribers ih =>
      obtain ⟨kept, batch, hserved, hbatch⟩ := hs.sendNextBatch s
      obtain ⟨rest, rest', hrest, hbatches⟩ := ih
      refine ⟨kept.toList ++ rest, batch.toList ++ rest', by rw [ClauseHistory.sendNextBatches, hserved, hrest]; rfl, ?_⟩
      intro b hb
      rcases List.mem_append.mp hb with hb | hb
      · exact hbatch b (Option.mem_toList.mp hb)
      · exact hbatches b hb

theorem addEpochAndSubscribe_sound {options : HistoryOptions} {a : Arrival} (hp : 1 ≤ options.maxLbdPartitionedSize)
    (hs : Sound options.maxLbdPartitionedSize sources known h)
    (harrival : Holds options.maxLbdPartitionedSize (sources (a.epoch / factor)) [a.clauses])
    (hbrings : ∀ epoch, a.Brings factor epoch → known epoch) :
    ∃ h' sent, h.addEpochAndSubscribe options a = .ok (h', sent) ∧
      Sound options.maxLbdPartitionedSize sources known h' := by
  obtain ⟨h', hok, hs'⟩ := addEpoch_sound hp hs harrival hbrings
  rw [addEpoch_eq_map] at hok
  obtain ⟨⟨h₁, sent⟩, hboth, rfl⟩ := Runs.exists_of_map_eq_ok hok
  exact ⟨h₁, sent, hboth, hs'⟩

end Soundness

end Mallob.Sharing.ClauseHistory
